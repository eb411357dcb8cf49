import StackMachine.Proofs.Histories

/-!
Stack underflows. A step underflows exactly when the stack holds fewer values than its opcode takes. Operands that are
taken all at once are reported as they are counted in the instruction set; those that are taken one after the other, by
a store and by a branch with a condition, are reported by the pop that fails.
-/

namespace StackMachine

namespace Opcode

/-- What the fault of an underflow says, on a stack of the given depth: how many values were needed, and how many there
were when they were. -/
def shortage (op : Opcode) (depth : Nat) : Fault :=
  if op.isBranch then
    if depth = 0 then .stackUnderflow 1 0 else .stackUnderflow (op.operandCount - 1) (depth - 1)
  else if op = .store then .stackUnderflow 1 0
  else .stackUnderflow op.operandCount depth

def popsTwice : List Opcode := [store, jz, jnz, je, jg, jl]

theorem shortage_of_isOperation {op : Opcode} (h : op.isOperation = true) (depth : Nat) :
    op.shortage depth = .stackUnderflow op.operandCount depth := by
  have hb : op.isBranch = false ∧ op ≠ .store := by
    revert h
    cases op <;> decide
  simp [shortage, hb]

theorem needed_eq_operandCount_iff {op : Opcode} {needed held depth : Nat}
    (h : op.shortage depth = .stackUnderflow needed held) (hd : depth < op.operandCount) :
    needed = op.operandCount ↔ op ∉ popsTwice := by
  have hbranch : op.isBranch = true → (op = jmp ∧ op.operandCount = 1) ∨ (op ∈ popsTwice ∧ 2 ≤ op.operandCount) := by
    cases op <;> decide
  have hother : op.isBranch = false → (op ∈ popsTwice ↔ op = .store) := by
    cases op <;> decide
  have hjmp : jmp ∉ popsTwice := by decide
  have hstore : store.operandCount = 2 := rfl
  rw [shortage] at h
  split at h
  · rename_i hb
    rcases hbranch hb with ⟨rfl, hc⟩ | ⟨hm, hc⟩
    · have hz : depth = 0 := by omega
      rw [if_pos hz] at h
      cases h
      exact iff_of_true hc.symm hjmp
    · refine iff_of_false ?_ (not_not_intro hm)
      split at h <;> cases h <;> omega
  · rename_i hb
    have hm := hother (Bool.eq_false_iff.mpr hb)
    split at h
    · rename_i hs
      cases h
      exact iff_of_false (by rw [hs, hstore]; omega) (not_not_intro (hm.mpr hs))
    · rename_i hs
      cases h
      exact iff_of_true rfl (mt hm.mp hs)

end Opcode

namespace State

theorem shortage_of_ends {s t : State} {op : Opcode} {fault : Fault} (he : op.instruction.Ends s (.error fault t)) :
    (s.stack.length < op.operandCount ∧ fault = op.shortage s.stack.length) ∨
      (op.operandCount ≤ s.stack.length ∧ ∀ needed held, fault ≠ .stackUnderflow needed held) := by
  generalize hi : op.instruction = i at he
  have hk := Opcode.of_instruction hi
  cases he with
  | pushLabel h =>
    obtain rfl : op = .push := hk
    exact .inr ⟨Nat.zero_le _, nofun⟩
  | pushOverrun h =>
    obtain rfl : op = .push := hk
    exact .inr ⟨Nat.zero_le _, nofun⟩
  | loadEmpty h =>
    obtain rfl : op = .load := hk
    rw [h]
    exact .inl ⟨Nat.one_pos, rfl⟩
  | loadAddress h ha =>
    obtain rfl : op = .load := hk
    rw [h]
    exact .inr ⟨Nat.le_add_left _ _, nofun⟩
  | storeEmpty h =>
    obtain rfl : op = .store := hk
    rw [h]
    exact .inl ⟨Nat.two_pos, rfl⟩
  | storeSingle h =>
    obtain rfl : op = .store := hk
    rw [h]
    exact .inl ⟨Nat.one_lt_two, rfl⟩
  | storeAddress h ha =>
    obtain rfl : op = .store := hk
    rw [h]
    exact .inr ⟨Nat.le_add_left _ _, nofun⟩
  | outEmpty h =>
    obtain rfl : op = .out := hk
    rw [h]
    exact .inl ⟨Nat.one_pos, rfl⟩
  | operateUnderflow h =>
    rw [← hk.2] at h ⊢
    exact .inl ⟨h, (Opcode.shortage_of_isOperation hk.1 _).symm⟩
  | branchEmpty h =>
    rw [h, Opcode.shortage, if_pos hk.1, hk.2]
    exact .inl ⟨Nat.succ_pos _, rfl⟩
  | @branchUnderflow condition offset rest h hl =>
    rw [h, Opcode.shortage, if_pos hk.1, hk.2]
    exact .inl ⟨Nat.succ_lt_succ hl, rfl⟩
  | @branchTarget condition offset operands rest h hl ht hx =>
    refine .inr ⟨?_, nofun⟩
    rw [h, hk.2, ← hl]
    simp only [List.length_cons, List.length_append, List.length_reverse]
    omega

end State

namespace Machine

variable {σ : Type} [Sink σ]

theorem underflow_reports (m : Machine σ) (needed held : Nat) :
    (∃ next, step m = .error (.stackUnderflow needed held) next) ↔
      m.state.halted = false ∧ ∃ op, m.state.nextOpcode? = some op ∧ m.state.stack.length < op.operandCount ∧
        op.shortage m.state.stack.length = .stackUnderflow needed held ∧
        (needed = op.operandCount ↔ op ∉ Opcode.popsTwice) := by
  constructor
  · rintro ⟨next, h⟩
    have hr := not_halted_of_step_error h
    have hc := step_cycle hr
    rw [h] at hc
    cases hc with
    | @fault op _ _ hop he =>
      rcases State.shortage_of_ends he with ⟨hd, hf⟩ | ⟨_, hf⟩
      · exact ⟨hr, op, hop, hd, hf.symm, Opcode.needed_eq_operandCount_iff hf.symm hd⟩
      · exact absurd rfl (hf needed held)
  · rintro ⟨hr, op, hop, hd, hf, _⟩
    rcases step_of_nextOpcode hr hop with ⟨effect, s, he, _⟩ | ⟨fault, s, he, hs⟩
    · obtain ⟨change, ha⟩ := State.exists_applied he
      obtain ⟨below, hb, _⟩ := ha.stack
      exact absurd (State.Enabled.of_row ha.row hb).depth (Nat.not_le.mpr hd)
    · rcases State.shortage_of_ends he with ⟨_, hfault⟩ | ⟨hle, _⟩
      · obtain rfl : fault = .stackUnderflow needed held := hfault.trans hf
        exact ⟨_, hs⟩
      · exact absurd hle (Nat.not_le.mpr hd)

theorem underflow_understates_store : ¬ ∀ (program : Program) (results : List (Option Fault)) (m next : Machine Collector)
    (op : Opcode) (needed held : Nat), History (start program {} .silent) results m →
      m.state.nextOpcode? = some op → step m = .error (.stackUnderflow needed held) next →
        needed = op.operandCount := by
  intro h
  have hop : (start (Program.empty.emit .store) ({} : Collector) .silent).state.nextOpcode? = some .store :=
    State.nextOpcode?_of_number rfl
  have hs := step_of_cycle_error rfl (cycle_of_execute_error hop rfl)
  exact absurd (h _ _ _ _ _ _ _ .nil hop hs) (by decide)

end Machine

end StackMachine
