import StackMachine.Machine.Memory
import StackMachine.Machine.Stack
import StackMachine.Number.Arithmetic
import StackMachine.Program.Basic

namespace StackMachine

structure State where
  rom : Program
  pc : Nat
  halted : Bool
  stack : Stack
  memory : Memory
deriving DecidableEq

abbrev Action := EStateM Fault State

namespace State

def initial (rom : Program) : State where
  rom
  pc := 0
  halted := rom.isEmpty
  stack := []
  memory := Memory.empty

def pastEnd (s : State) : Bool := s.rom.size ≤ s.pc

end State

namespace Action

/-- The number in the next cell. The program counter moves past a label too, but not past the end. -/
def fetch : Action Number := fun s =>
  match s.rom.cell? s.pc with
  | none => .error (.romOverrun s.pc s.rom.size) s
  | some (.number value) => .ok value { s with pc := s.pc + 1 }
  | some (.label name) => .error (.illegalValue s.pc name) { s with pc := s.pc + 1 }

def jumpTo (target : Number) : Action Unit := fun s =>
  match target.toIndex?.filter (· < s.rom.size) with
  | some index => .ok () { s with pc := index }
  | none => .error (.illegalJumpTarget target s.rom.size) s

def jump (offset : Number) : Action Unit := fun s => jumpTo (Number.ofNat s.pc + offset) s

def push (value : Number) : Action Unit :=
  modify fun s => { s with stack := s.stack.push value }

def pushAll (values : List Number) : Action Unit :=
  modify fun s => { s with stack := s.stack.pushAll values }

def pop : Action Number := fun s =>
  match s.stack.pop with
  | .ok (value, rest) => .ok value { s with stack := rest }
  | .error fault => .error fault s

def popMany (count : Nat) : Action (List Number) := fun s =>
  match s.stack.popMany count with
  | .ok (operands, rest) => .ok operands { s with stack := rest }
  | .error fault => .error fault s

def load (address : Number) : Action Number := fun s =>
  match s.memory.load address with
  | .ok value => .ok value s
  | .error fault => .error fault s

def store (address value : Number) : Action Unit := fun s =>
  match s.memory.store address value with
  | .ok memory => .ok () { s with memory }
  | .error fault => .error fault s

def halt : Action Unit := modify fun s => { s with halted := true }

end Action

namespace Snapshot

def quote (text : String) : String := "\"" ++ text ++ "\""

def compact (opening closing : String) (items : List String) : String :=
  opening ++ String.intercalate "," items ++ closing

def spread (opening closing : String) (items : List String) : String :=
  if items.isEmpty then opening ++ closing
  else opening ++ "\n    " ++ String.intercalate ",\n    " items ++ "\n  " ++ closing

def members (colon : String) (memory : Memory) : List String :=
  memory.entries.map fun (address, value) => quote address.text ++ colon ++ value.json

end Snapshot

def Stack.json (stack : Stack) : String :=
  Snapshot.compact "[" "]" (stack.bottomFirst.map Number.json)

def Memory.json (memory : Memory) : String :=
  Snapshot.compact "\x7b" "\x7d" (Snapshot.members ":" memory)

def State.json (s : State) : String :=
  "\x7b\n  \"pc\": " ++ toString s.pc
    ++ ",\n  \"halted\": " ++ (if s.halted then "true" else "false")
    ++ ",\n  \"stack\": " ++ Snapshot.spread "[" "]" (s.stack.bottomFirst.map Number.json)
    ++ ",\n  \"memory\": " ++ Snapshot.spread "\x7b" "\x7d" (Snapshot.members ": " s.memory)
    ++ "\n\x7d"

end StackMachine
