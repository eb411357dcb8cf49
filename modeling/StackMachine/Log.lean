import StackMachine.Machine.Stack
import StackMachine.Program.Opcode

namespace StackMachine

inductive Level where
  | trace
  | debug
  | info
  | warn
  | error
deriving DecidableEq

namespace Level

def severity : Level → Nat
  | trace => 0
  | debug => 1
  | info => 2
  | warn => 3
  | error => 4

def name : Level → String
  | trace => "TRACE"
  | debug => "DEBUG"
  | info => "INFO"
  | warn => "WARN"
  | error => "ERROR"

def ofName? (text : String) : Option Level :=
  let upper := text.toList.map Char.toUpper
  [trace, debug, info, warn, error].find? fun level => level.name.toList == upper

end Level

inductive Event where
  | cycle (pc : Nat) (opcode : Opcode) (stack : Stack)
  | branchTaken (source target : Nat)
  | halted (pc cycles : Nat)
  | faulted (pc cycles : Nat) (fault : Fault)
  | writeFailed (reason : String) (value : Number)
  | valueEmitted (value : Number)
  | demoChosen
  | listingLoaded (path : String) (bytes : Nat)
  | programStarted (cells : Nat)
  | programFinished (values : Nat)
  | stepped (pc : Nat) (opcode : Option Opcode) (stack : Stack)
deriving DecidableEq

inductive FieldValue where
  | count (n : Nat)
  | text (s : String)
  | quoted (s : String)

namespace FieldValue

def render : FieldValue → String
  | count n => toString n
  | text s => s
  | quoted s => "\"" ++ s ++ "\""

end FieldValue

namespace Event

def level : Event → Level
  | cycle .. => .trace
  | branchTaken .. => .trace
  | halted .. => .debug
  | faulted .. => .debug
  | writeFailed .. => .warn
  | valueEmitted .. => .info
  | demoChosen => .info
  | listingLoaded .. => .debug
  | programStarted .. => .debug
  | programFinished .. => .debug
  | stepped .. => .info

def isStep : Event → Bool
  | stepped .. => true
  | _ => false

def message : Event → String
  | cycle .. => "cycle"
  | branchTaken .. => "branch taken"
  | halted .. => "machine halted"
  | faulted .. => "machine fault"
  | writeFailed .. => "failed to write output value"
  | valueEmitted .. => "OUT"
  | demoChosen => "no program given, running the Fibonacci demo"
  | listingLoaded .. => "loaded listing"
  | programStarted .. => "running program"
  | programFinished .. => "program finished"
  | stepped .. => "step"

def topText (stack : Stack) : String :=
  match stack.head? with
  | some top => "Some(" ++ top.inspect ++ ")"
  | none => "None"

def fields : Event → List (String × FieldValue)
  | cycle pc opcode stack =>
    [("pc", .count pc), ("opcode", .text opcode.mnemonic), ("depth", .count stack.length)]
  | branchTaken source target => [("from", .count source), ("to", .count target)]
  | halted pc cycles => [("pc", .count pc), ("cycles", .count cycles)]
  | faulted pc cycles fault =>
    [("pc", .count pc), ("cycles", .count cycles), ("error", .text fault.message)]
  | writeFailed reason value => [("error", .text reason), ("value", .text value.text)]
  | valueEmitted value => [("value", .text value.text)]
  | demoChosen => []
  | listingLoaded path bytes => [("path", .text path), ("bytes", .count bytes)]
  | programStarted cells => [("cells", .count cells)]
  | programFinished values => [("values", .count values)]
  | stepped pc opcode stack =>
    [("pc", .count pc), ("opcode", .quoted ((opcode.map Opcode.mnemonic).getD "?")),
      ("depth", .count stack.length), ("top", .text (topText stack))]

def line (e : Event) : String :=
  e.fields.foldl (fun text (key, value) => text ++ " " ++ key ++ "=" ++ value.render)
    (e.level.name ++ " " ++ e.message) ++ "\n"

end Event

structure Filter where
  threshold : Option Level
  steps : Bool := false

namespace Filter

def nothing : Filter where
  threshold := none

def admits (filter : Filter) (e : Event) : Bool :=
  (filter.steps && e.isStep) || match filter.threshold with
    | some level => level.severity ≤ e.level.severity
    | none => false

end Filter

structure Journal where
  filter : Filter
  /-- The kept events, the latest first. -/
  latest : List Event := []

namespace Journal

def silent : Journal where
  filter := .nothing

def record (journal : Journal) (e : Event) : Journal :=
  if journal.filter.admits e then { journal with latest := e :: journal.latest } else journal

def recordAll (journal : Journal) (events : List Event) : Journal := events.foldl record journal

def events (journal : Journal) : List Event := journal.latest.reverse

theorem events_record (journal : Journal) (e : Event) :
    (journal.record e).events = journal.events ++ if journal.filter.admits e then [e] else [] := by
  unfold record
  split <;> simp [events]

end Journal

end StackMachine
