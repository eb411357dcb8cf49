import StackMachine.Proofs.InstructionSet

namespace StackMachine

namespace Program

theorem cell?_eq_none_iff (p : Program) (i : Nat) : p.cell? i = none ↔ p.size ≤ i :=
  Array.getElem?_eq_none_iff

theorem lt_size_of_cell? {p : Program} {i : Nat} {cell : Cell} (h : p.cell? i = some cell) : i < p.size := by
  apply Nat.lt_of_not_le
  rw [← cell?_eq_none_iff, h]
  exact nofun

end Program

namespace State

def cellsFetched (s : State) : Fault → Nat
  | .romOverrun _ _ => if s.pc < s.rom.size then 1 else 0
  | .illegalValue _ _ => if s.nextOpcode? = some .push then 2 else 1
  | _ => 1

inductive Missing (s : State) : Fault → List Number → Prop
  | illegalValue {pc : Nat} {name : String} : Missing s (.illegalValue pc name) []
  | romOverrun {pc size : Nat} : Missing s (.romOverrun pc size) []
  | illegalOpcode {code : Number} : Missing s (.illegalOpcode code) []
  | operation {op : Opcode} {needed depth : Nat} (h : s.nextOpcode? = some op) (ho : op.isOperation = true) :
      Missing s (.stackUnderflow needed depth) []
  | emptyStack {needed depth : Nat} (h : s.stack = []) : Missing s (.stackUnderflow needed depth) []
  | storeSingle {needed depth : Nat} {a : Number} (h : s.nextOpcode? = some .store) (hs : s.stack.length = 1) :
      Missing s (.stackUnderflow needed depth) [a]
  | condition {op : Opcode} {needed depth : Nat} {offset : Number} (h : s.nextOpcode? = some op)
      (hb : op.isBranch = true) (hl : 1 ≤ s.stack.length) (hd : s.stack.length < op.operandCount) :
      Missing s (.stackUnderflow needed depth) [offset]
  | loadAddress {a : Number} (h : s.nextOpcode? = some .load) : Missing s (.illegalAddress a) [a]
  | storeAddress {a value : Number} (h : s.nextOpcode? = some .store) : Missing s (.illegalAddress a) [value, a]
  | jumpTarget {op : Opcode} {target offset : Number} {size : Nat} {operands : List Number}
      (h : s.nextOpcode? = some op) (hb : op.isBranch = true) (hl : operands.length + 1 = op.operandCount) :
      Missing s (.illegalJumpTarget target size) (operands ++ [offset])

structure Faulted (s : State) (fault : Fault) (t : State) : Prop where
  rom : t.rom = s.rom
  memory : t.memory = s.memory
  halted : t.halted = s.halted
  pc : t.pc = s.pc + s.cellsFetched fault
  stack : ∃ lost, s.stack.bottomFirst = t.stack.bottomFirst ++ lost ∧ s.Missing fault lost

theorem nextOpcode?_lt_size {s : State} {op : Opcode} (h : s.nextOpcode? = some op) : s.pc < s.rom.size := by
  obtain ⟨code, hc, _⟩ := (s.nextOpcode?_eq_some_iff op).mp h
  exact Program.lt_size_of_cell? hc

theorem faulted_of_ends {s t : State} {op : Opcode} {fault : Fault} (hop : s.nextOpcode? = some op)
    (he : op.instruction.Ends s.advance (.error fault t)) : s.Faulted fault t := by
  have hlt := nextOpcode?_lt_size hop
  have hnil : s.stack.bottomFirst = s.stack.bottomFirst ++ [] := (List.append_nil _).symm
  generalize hi : op.instruction = i at he
  have hk := Opcode.of_instruction hi
  cases he with
  | pushLabel h =>
    obtain rfl : op = .push := hk
    exact ⟨rfl, rfl, rfl, by rw [cellsFetched, if_pos hop]; rfl, [], hnil, .illegalValue⟩
  | pushOverrun h => exact ⟨rfl, rfl, rfl, by rw [cellsFetched, if_pos hlt]; rfl, [], hnil, .romOverrun⟩
  | loadEmpty h => exact ⟨rfl, rfl, rfl, rfl, [], hnil, .emptyStack h⟩
  | @loadAddress a rest h ha =>
    obtain rfl : op = .load := hk
    exact ⟨rfl, rfl, rfl, rfl, [a], Stack.bottomFirst_of_append [a] h, .loadAddress hop⟩
  | storeEmpty h => exact ⟨rfl, rfl, rfl, rfl, [], hnil, .emptyStack h⟩
  | @storeSingle a h =>
    obtain rfl : op = .store := hk
    exact ⟨rfl, rfl, rfl, rfl, [a], Stack.bottomFirst_of_append [a] h, .storeSingle hop (congrArg List.length h)⟩
  | @storeAddress a value rest h ha =>
    obtain rfl : op = .store := hk
    exact ⟨rfl, rfl, rfl, rfl, [value, a], Stack.bottomFirst_of_append [value, a] h, .storeAddress hop⟩
  | outEmpty h => exact ⟨rfl, rfl, rfl, rfl, [], hnil, .emptyStack h⟩
  | operateUnderflow h => exact ⟨rfl, rfl, rfl, rfl, [], hnil, .operation hop hk.1⟩
  | branchEmpty h => exact ⟨rfl, rfl, rfl, rfl, [], hnil, .emptyStack h⟩
  | @branchUnderflow condition offset rest h hl =>
    have hs : s.stack.length = rest.length + 1 := congrArg List.length h
    have hd : s.stack.length < op.operandCount := by
      rw [hk.2]
      omega
    have hb := Stack.bottomFirst_of_append [offset] h
    exact ⟨rfl, rfl, rfl, rfl, [offset], hb, .condition hop hk.1 (by omega) hd⟩
  | @branchTarget condition offset operands rest h hl ht hx =>
    have ho : operands.length + 1 = op.operandCount := by rw [hk.2, hl]
    exact ⟨rfl, rfl, rfl, rfl, operands ++ [offset], Stack.bottomFirst_of_branch h, .jumpTarget hop hk.1 ho⟩

theorem faulted_of_overrun {s : State} (h : s.rom.cell? s.pc = none) :
    s.Faulted (.romOverrun s.pc s.rom.size) s := by
  have hn : ¬ s.pc < s.rom.size := Nat.not_lt.mpr ((s.rom.cell?_eq_none_iff s.pc).mp h)
  exact ⟨rfl, rfl, rfl, by rw [cellsFetched, if_neg hn]; rfl, [], (List.append_nil _).symm, .romOverrun⟩

theorem faulted_of_label {s : State} {name : String} (h : s.rom.cell? s.pc = some (.label name)) :
    s.Faulted (.illegalValue s.pc name) s.advance := by
  have hn : s.nextOpcode? ≠ some .push := by
    rw [Ne, nextOpcode?_eq_some_iff]
    rintro ⟨code, hc, _⟩
    cases h.symm.trans hc
  exact ⟨rfl, rfl, rfl, by rw [cellsFetched, if_neg hn]; rfl, [], (List.append_nil _).symm, .illegalValue⟩

theorem faulted_of_code (s : State) (code : Number) : s.Faulted (.illegalOpcode code) s.advance :=
  ⟨rfl, rfl, rfl, rfl, [], (List.append_nil _).symm, .illegalOpcode⟩

end State

namespace Machine

variable {σ : Type} [Sink σ]

theorem faulted_of_step {m next : Machine σ} {fault : Fault} (hr : m.state.halted = false)
    (h : step m = .error fault next) :
    m.state.Faulted fault next.state ∧ next.cycles = m.cycles ∧ next.output = m.output := by
  have hc := step_cycle hr
  rw [h] at hc
  cases hc with
  | overrun hc => exact ⟨State.faulted_of_overrun hc, rfl, rfl⟩
  | label hc => exact ⟨State.faulted_of_label hc, rfl, rfl⟩
  | illegalOpcode _ _ => exact ⟨State.faulted_of_code m.state _, rfl, rfl⟩
  | fault hop he => exact ⟨State.faulted_of_ends hop he, rfl, rfl⟩

theorem step_fault_frame (m next : Machine σ) (fault : Fault) (hr : m.state.halted = false)
    (h : step m = .error fault next) :
    m.state.Faulted fault next.state ∧ next.state.halted = false ∧ next.cycles = m.cycles ∧
      next.output = m.output := by
  obtain ⟨hf, hrest⟩ := faulted_of_step hr h
  exact ⟨hf, hf.halted.trans hr, hrest⟩

def shortTest : Machine Collector where
  state :=
    { rom := Program.empty.emit .je
      pc := 0
      halted := false
      stack := [Number.zero, Number.nan]
      memory := .empty }
  output := {}
  journal := .silent

theorem step_fault_frame_shortTest : ∃ next, step shortTest = .error (.stackUnderflow 2 1) next ∧
    shortTest.state.Faulted (.stackUnderflow 2 1) next.state ∧ next.state.halted = false ∧
      next.cycles = shortTest.cycles ∧ next.output = shortTest.output := by
  have hop : shortTest.state.nextOpcode? = some .je := State.nextOpcode?_of_number rfl
  have h := step_of_cycle_error rfl (cycle_of_execute_error hop rfl)
  exact ⟨_, h, step_fault_frame _ _ _ rfl h⟩

end Machine

end StackMachine
