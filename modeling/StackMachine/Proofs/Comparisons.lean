import Mathlib.Data.EReal.Basic
import StackMachine.Proofs.Exactness
import StackMachine.Proofs.InstructionSet

namespace StackMachine

namespace Number

noncomputable def extendedValue (x : Number) : EReal :=
  if x.isInfinite then if x.negative then ⊥ else ⊤ else (x.value : ℝ)

theorem extendedValue_cases {x : Number} (h : x.isNaN = false) :
    (x.key = -infinityMagnitude ∧ x.extendedValue = ⊥) ∨ (x.key = infinityMagnitude ∧ x.extendedValue = ⊤) ∨
      (-infinityMagnitude < x.key ∧ x.key < infinityMagnitude ∧ x.extendedValue = (x.value : ℝ)) := by
  have hle : x.magnitude ≤ infinityMagnitude := Nat.not_lt.mp (of_decide_eq_false h)
  rw [extendedValue, isInfinite, key]
  rcases Nat.lt_or_eq_of_le hle with hlt | heq
  · have hne : (x.magnitude == infinityMagnitude) = false := beq_eq_false_iff_ne.mpr hlt.ne
    refine .inr (.inr ⟨?_, ?_, by rw [hne]; rfl⟩)
    all_goals split <;> omega
  · rw [heq, beq_self_eq_true]
    cases x.negative with
    | true => exact .inl ⟨rfl, rfl⟩
    | false => exact .inr (.inl ⟨rfl, rfl⟩)

theorem value_lt_iff_key (a b : Number) : a.value < b.value ↔ a.key < b.key := by
  rw [value, value, div_lt_div_iff_of_pos_right unitsPerOne_cast_pos, Int.cast_lt, key_lt_iff]

theorem extendedValue_lt_of_key_lt {a b : Number} (ha : a.isNaN = false) (hb : b.isNaN = false) (h : a.key < b.key) :
    a.extendedValue < b.extendedValue := by
  rcases extendedValue_cases ha with ⟨hka, hea⟩ | ⟨hka, hea⟩ | ⟨hloa, hhia, hea⟩ <;>
    rcases extendedValue_cases hb with ⟨hkb, heb⟩ | ⟨hkb, heb⟩ | ⟨hlob, hhib, heb⟩ <;>
    rw [hea, heb]
  case inl.inr.inl => exact bot_lt_top
  case inl.inr.inr => exact EReal.bot_lt_coe _
  case inr.inr.inr.inl => exact EReal.coe_lt_top _
  case inr.inr.inr.inr =>
    rw [EReal.coe_lt_coe_iff, Rat.cast_lt, value_lt_iff_key]
    exact h
  all_goals omega

theorem extendedValue_eq_of_key_eq {a b : Number} (ha : a.isNaN = false) (hb : b.isNaN = false) (h : a.key = b.key) :
    a.extendedValue = b.extendedValue := by
  rcases extendedValue_cases ha with ⟨hka, hea⟩ | ⟨hka, hea⟩ | ⟨hloa, hhia, hea⟩ <;>
    rcases extendedValue_cases hb with ⟨hkb, heb⟩ | ⟨hkb, heb⟩ | ⟨hlob, hhib, heb⟩ <;>
    rw [hea, heb]
  case inr.inr.inr.inr => rw [value, value, (key_eq_iff a b).mp h]
  all_goals have hpos : 0 < infinityMagnitude := by decide
  all_goals omega

theorem key_lt_iff_extendedValue {a b : Number} (ha : a.isNaN = false) (hb : b.isNaN = false) :
    a.key < b.key ↔ a.extendedValue < b.extendedValue := by
  refine ⟨extendedValue_lt_of_key_lt ha hb, ?_⟩
  intro h
  rcases Int.lt_trichotomy a.key b.key with hlt | heq | hgt
  · exact hlt
  · exact absurd (extendedValue_eq_of_key_eq ha hb heq) h.ne
  · exact absurd (extendedValue_lt_of_key_lt hb ha hgt) h.asymm

theorem key_eq_iff_extendedValue {a b : Number} (ha : a.isNaN = false) (hb : b.isNaN = false) :
    a.key = b.key ↔ a.extendedValue = b.extendedValue := by
  refine ⟨extendedValue_eq_of_key_eq ha hb, ?_⟩
  intro h
  have hlt := mt (key_lt_iff_extendedValue ha hb).mp h.not_lt
  have hgt := mt (key_lt_iff_extendedValue hb ha).mp h.not_gt
  omega

end Number

namespace Opcode

/-- The branch with this opcode is taken on these values, those below its offset in push order. -/
def Taken (op : Opcode) (operands : List Number) : Prop :=
  ∃ condition, op.instruction = .branch condition ∧ operands.length = condition.arity ∧
    condition.test operands = true

variable {a b : Number}

theorem taken_iff_jumps (op : Opcode) (operands : List Number) : op.Taken operands ↔ op.Jumps operands := by
  constructor
  · rintro ⟨condition, hi, hl, ht⟩
    exact (test_iff_jumps hi hl).mp ht
  · intro h
    have hb : ∃ condition, op.instruction = .branch condition ∧ operands.length = condition.arity := by
      cases h <;> exact ⟨_, rfl, rfl⟩
    obtain ⟨condition, hi, hl⟩ := hb
    exact ⟨condition, hi, hl, (test_iff_jumps hi hl).mpr h⟩

theorem je_taken_iff : je.Taken [a, b] ↔
    a.isNaN = false ∧ b.isNaN = false ∧ a.extendedValue = b.extendedValue := by
  have hj : je.Jumps [a, b] ↔ a.equal b := ⟨fun | .je h => h, .je⟩
  rw [taken_iff_jumps, hj, Number.equal_iff]
  apply and_congr_right
  intro ha
  apply and_congr_right
  exact Number.key_eq_iff_extendedValue ha

theorem jl_taken_iff : jl.Taken [a, b] ↔
    a.isNaN = false ∧ b.isNaN = false ∧ a.extendedValue < b.extendedValue := by
  have hj : jl.Jumps [a, b] ↔ a.less b := ⟨fun | .jl h => h, .jl⟩
  rw [taken_iff_jumps, hj, Number.less_iff]
  apply and_congr_right
  intro ha
  apply and_congr_right
  exact Number.key_lt_iff_extendedValue ha

theorem jg_taken_iff_jl : jg.Taken [a, b] ↔ jl.Taken [b, a] := by
  have hg : jg.Jumps [a, b] ↔ a.greater b := ⟨fun | .jg h => h, .jg⟩
  have hl : jl.Jumps [b, a] ↔ b.less a := ⟨fun | .jl h => h, .jl⟩
  rw [taken_iff_jumps, taken_iff_jumps, hg, hl, Number.greater_iff, Number.less_iff]
  exact and_left_comm

theorem jg_taken_iff : jg.Taken [a, b] ↔
    a.isNaN = false ∧ b.isNaN = false ∧ b.extendedValue < a.extendedValue := by
  rw [jg_taken_iff_jl, jl_taken_iff]
  exact and_left_comm

theorem jz_taken_iff : jz.Taken [a] ↔ a.equal Number.zero := by
  rw [taken_iff_jumps]
  exact ⟨fun | .jz h => h, .jz⟩

theorem jnz_taken_iff : jnz.Taken [a] ↔ ¬ a.equal Number.zero := by
  rw [taken_iff_jumps]
  exact ⟨fun | .jnz h => h, .jnz⟩

theorem jz_taken_iff_je : jz.Taken [a] ↔ je.Taken [a, Number.zero] := by
  rw [jz_taken_iff, taken_iff_jumps]
  exact ⟨.je, fun | .je h => h⟩

def comparing : Ordering → Opcode
  | .lt => jl
  | .eq => je
  | .gt => jg

theorem comparing_taken_iff (order : Ordering) : (comparing order).Taken [a, b] ↔ a.compare? b = some order := by
  rw [taken_iff_jumps, ← beq_iff_eq]
  cases order with
  | lt => exact ⟨fun | .jl h => h, .jl⟩
  | eq => exact ⟨fun | .je h => h, .je⟩
  | gt => exact ⟨fun | .jg h => h, .jg⟩

theorem exists_comparing {op : Opcode} (h : op ∈ [je, jg, jl]) : ∃ order, op = comparing order := by
  simp only [List.mem_cons, List.not_mem_nil, or_false] at h
  rcases h with rfl | rfl | rfl
  · exact ⟨.eq, rfl⟩
  · exact ⟨.gt, rfl⟩
  · exact ⟨.lt, rfl⟩

theorem comparing_mem (order : Ordering) : comparing order ∈ [je, jg, jl] := by
  cases order <;> decide

theorem existsUnique_taken (ha : a.isNaN = false) (hb : b.isNaN = false) :
    ∃! op, op ∈ [je, jg, jl] ∧ op.Taken [a, b] := by
  have hc : a.compare? b = some (compare a.key b.key) := by simp [Number.compare?, ha, hb]
  refine ⟨comparing (compare a.key b.key), ⟨comparing_mem _, (comparing_taken_iff _).mpr hc⟩, ?_⟩
  rintro op ⟨hop, ht⟩
  obtain ⟨order, rfl⟩ := exists_comparing hop
  rw [Option.some.inj (hc.symm.trans ((comparing_taken_iff order).mp ht))]

theorem not_taken_of_isNaN (h : a.isNaN ∨ b.isNaN) {op : Opcode} (hop : op ∈ [je, jg, jl]) : ¬ op.Taken [a, b] := by
  obtain ⟨order, rfl⟩ := exists_comparing hop
  have hc : a.compare? b = none := by simp [Number.compare?, h]
  rw [comparing_taken_iff, hc]
  exact (Option.some_ne_none order).symm

theorem exists_condition {op : Opcode} (h : op.isBranch = true) :
    ∃ condition, op.instruction = .branch condition ∧ op.operandCount = condition.arity + 1 := by
  cases op <;> cases h <;> exact ⟨_, rfl, rfl⟩

end Opcode

section Branches

variable {s : State} {op : Opcode} {operands : List Number} {offset : Number} {rest : Stack}

theorem execute_of_not_taken (hs : s.stack = offset :: (operands.reverse ++ rest)) (hb : op.isBranch = true)
    (hl : operands.length + 1 = op.operandCount) (ht : ¬ op.Taken operands) :
    Action.execute op s = .ok .quiet { s with stack := rest } := by
  obtain ⟨condition, hi, hc⟩ := Opcode.exists_condition hb
  have hlen : operands.length = condition.arity := by omega
  have htest : condition.test operands = false := Bool.eq_false_iff.mpr fun h => ht ⟨condition, hi, hlen, h⟩
  rw [Action.execute, hi]
  exact (Instruction.Ends.branchNotTaken hs hlen htest).execute_eq

theorem execute_of_taken (hs : s.stack = offset :: (operands.reverse ++ rest)) (ht : op.Taken operands) :
    Action.execute op s = match Action.jump offset { s with stack := rest } with
      | .ok _ next => .ok (.jumped s.pc next.pc) next
      | .error fault next => .error fault next := by
  obtain ⟨condition, hi, hlen, htest⟩ := ht
  rw [Action.execute, hi, Instruction.execute, bind_ok (Action.pop_cons hs),
    bind_ok (Action.popMany_operands rfl hlen), if_pos htest, bind_get]
  cases hj : Action.jump offset { s with stack := rest } with
  | ok _ next => exact bind_ok hj
  | error fault next => exact bind_error hj

end Branches

theorem Opcode.conditions_compare_values :
    (∀ a b : Number,
      (je.Taken [a, b] ↔ a.isNaN = false ∧ b.isNaN = false ∧ a.extendedValue = b.extendedValue) ∧
      (jg.Taken [a, b] ↔ a.isNaN = false ∧ b.isNaN = false ∧ b.extendedValue < a.extendedValue) ∧
      (jl.Taken [a, b] ↔ a.isNaN = false ∧ b.isNaN = false ∧ a.extendedValue < b.extendedValue) ∧
      (a.isNaN = false → b.isNaN = false → ∃! op, op ∈ [je, jg, jl] ∧ op.Taken [a, b]) ∧
      (a.isNaN ∨ b.isNaN → ∀ op ∈ [je, jg, jl], ¬ op.Taken [a, b]) ∧
      (jg.Taken [a, b] ↔ jl.Taken [b, a])) ∧
    (∀ a : Number,
      (jz.Taken [a] ↔ ¬ jnz.Taken [a]) ∧ (a.isNaN → jnz.Taken [a]) ∧
      (jz.Taken [a] ↔ je.Taken [a, Number.zero])) ∧
    ∀ (s : State) (op : Opcode) (operands : List Number) (offset : Number) (rest : Stack),
      s.stack = offset :: (operands.reverse ++ rest) → op.isBranch = true → operands.length + 1 = op.operandCount →
        (¬ op.Taken operands → Action.execute op s = .ok .quiet { s with stack := rest }) ∧
        (op.Taken operands → Action.execute op s = match Action.jump offset { s with stack := rest } with
          | .ok _ next => .ok (.jumped s.pc next.pc) next
          | .error fault next => .error fault next) := by
  refine ⟨?_, ?_, ?_⟩
  · intro a b
    exact ⟨je_taken_iff, jg_taken_iff, jl_taken_iff, existsUnique_taken, fun h _ => not_taken_of_isNaN h,
      jg_taken_iff_jl⟩
  · intro a
    refine ⟨by rw [jz_taken_iff, jnz_taken_iff, not_not], ?_, jz_taken_iff_je⟩
    intro h
    rw [jnz_taken_iff, Number.equal_iff, h]
    exact nofun
  · intro s op operands offset rest hs hb hl
    exact ⟨execute_of_not_taken hs hb hl, execute_of_taken hs⟩

def State.leastOverZero : State :=
  { State.initial Program.empty with stack := [Number.zero, Number.signedZero true, Number.ofBits 1] }

theorem Opcode.conditions_compare_values_leastOverZero :
    (∃! op, op ∈ [je, jg, jl] ∧ op.Taken [Number.ofBits 1, Number.signedZero true]) ∧
      (Number.signedZero true).extendedValue < (Number.ofBits 1).extendedValue ∧
      Action.execute .jl State.leastOverZero = .ok .quiet { State.leastOverZero with stack := [] } ∧
      (∀ op ∈ [je, jg, jl], ¬ op.Taken [Number.nan, Number.zero]) ∧ jnz.Taken [Number.nan] := by
  obtain ⟨hpair, hsingle, hexecute⟩ := conditions_compare_values
  obtain ⟨_, hjg, hjl, hunique, _⟩ := hpair (Number.ofBits 1) (Number.signedZero true)
  obtain ⟨_, _, _, _, hnan, _⟩ := hpair Number.nan Number.zero
  have hlt := (hjg.mp ⟨_, rfl, rfl, by decide⟩).2.2
  have hnot : ¬ jl.Taken [Number.ofBits 1, Number.signedZero true] := fun h => hlt.asymm (hjl.mp h).2.2
  exact ⟨hunique rfl rfl, hlt, (hexecute State.leastOverZero .jl _ _ [] rfl rfl rfl).1 hnot, hnan (.inl rfl),
    (hsingle Number.nan).2.1 rfl⟩

end StackMachine
