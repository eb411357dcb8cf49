import StackMachine.Log
import StackMachine.Machine.Execution
import StackMachine.Output

namespace StackMachine

structure Machine (σ : Type) where
  state : State
  output : σ
  journal : Journal
  /-- The exact count of the completed cycles; a counter of 64 bits agrees with it below `2 ^ 64`. -/
  cycles : Nat := 0

namespace Machine

variable {σ : Type}

def start (rom : Program) (output : σ) (journal : Journal) : Machine σ where
  state := State.initial rom
  output
  journal

def record (m : Machine σ) (e : Event) : Machine σ := { m with journal := m.journal.record e }

def act {α : Type} (action : Action α) : EStateM Fault (Machine σ) α := fun m =>
  match action m.state with
  | .ok a state => .ok a { m with state }
  | .error fault state => .error fault { m with state }

def perform [Sink σ] (m : Machine σ) : Effect → Machine σ
  | .quiet => m
  | .emitted value =>
    let (output, events) := Sink.emit m.output value
    { m with output, journal := m.journal.recordAll events }
  | .jumped source target => m.record (.branchTaken source target)

def execute [Sink σ] (opcode : Opcode) : EStateM Fault (Machine σ) Unit := do
  let effect ← act (Action.execute opcode)
  modify (·.perform effect)

def cycle [Sink σ] : EStateM Fault (Machine σ) Unit := do
  let pc := (← get).state.pc
  let opcode ← act Action.fetchOpcode
  modify fun m => m.record (.cycle pc opcode m.state.stack)
  execute opcode
  act Action.haltAtEnd
  modify fun m => { m with cycles := m.cycles + 1 }

def step [Sink σ] : EStateM Fault (Machine σ) Bool := do
  if (← get).state.halted then
    return false
  else
    cycle
    return !(← get).state.halted

end Machine

abbrev Ending (σ : Type) := EStateM.Result Fault (Machine σ) Unit

namespace Ending

variable {σ : Type}

def machine : Ending σ → Machine σ
  | .ok _ m => m
  | .error _ m => m

end Ending

namespace State

def nextOpcode? (s : State) : Option Opcode := (s.rom.cell? s.pc).bind Cell.opcode?

end State

namespace Machine

variable {σ : Type}

def run [Sink σ] : Nat → Machine σ → Option (Ending σ)
  | 0, _ => none
  | fuel + 1, m =>
    match step m with
    | .ok true m => run fuel m
    | .ok false m => some (.ok () (m.record (.halted m.state.pc m.cycles)))
    | .error fault m => some (.error fault (m.record (.faulted m.state.pc m.cycles fault)))

theorem run_add [Sink σ] {fuel : Nat} {m : Machine σ} {ending : Ending σ}
    (h : m.run fuel = some ending) (more : Nat) : m.run (fuel + more) = some ending := by
  induction fuel generalizing m with
  | zero => simp [run] at h
  | succ fuel ih =>
    rw [Nat.add_right_comm]
    unfold run at h ⊢
    split at h <;> simp_all

def runTraced [Sink σ] : Nat → Machine σ → Option (Ending σ)
  | 0, _ => none
  | fuel + 1, m =>
    let report (next : Machine σ) :=
      next.record (.stepped m.state.pc m.state.nextOpcode? next.state.stack)
    match step m with
    | .ok true next => runTraced fuel (report next)
    | .ok false next => some (.ok () (report next))
    | .error fault next => some (.error fault next)

def walk [Sink σ] : Nat → Machine σ → List (EStateM.Result Fault (Machine σ) Bool)
  | 0, _ => []
  | count + 1, m =>
    match step m with
    | .ok true next => .ok true next :: walk count next
    | result => [result]

end Machine

end StackMachine
