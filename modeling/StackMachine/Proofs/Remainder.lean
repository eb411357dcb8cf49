import Mathlib.Algebra.Order.Ring.Abs
import StackMachine.Proofs.Exactness
import StackMachine.Proofs.Outcomes

namespace StackMachine.Number

theorem units_ne_zero {x : Number} (h : x.isZero = false) : x.units ≠ 0 := by
  have hne := absUnits_ne_zero h
  rw [units]
  split <;> omega

theorem value_div (a b : Number) : a.value / b.value = a.units / b.units :=
  div_div_div_cancel_right₀ unitsPerOne_cast_pos.ne' _ _

theorem rem_value {a b : Number} (ha : a.isFinite) (hb : b.isFinite) (h : b.isZero = false) :
    (a % b).value = a.value - b.value * towardZero (a.value / b.value) := by
  have hu := (rem_units ha hb h).2
  rw [Int.tmod_def] at hu
  rw [value_div, towardZero_div, value, hu, value, value]
  push_cast
  ring

theorem abs_rem_value_lt {a b : Number} (ha : a.isFinite) (hb : b.isFinite) (h : b.isZero = false) :
    |(a % b).value| < |b.value| := by
  have hlt : |(a % b).units| < |b.units| := by
    rw [(rem_units ha hb h).2, Int.abs_eq_natAbs, Int.abs_eq_natAbs, Int.natAbs_tmod, Int.ofNat_lt]
    exact Nat.mod_lt _ (Int.natAbs_pos.mpr (units_ne_zero h))
  rw [value, value, abs_div, abs_div]
  apply div_lt_div_of_pos_right _ (abs_pos.mpr unitsPerOne_cast_pos.ne')
  exact_mod_cast hlt

theorem rem_of_isInfinite {a b : Number} (ha : a.isFinite) (hb : b.isInfinite) : a % b = a := by
  have hm : b.magnitude = infinityMagnitude := by simpa [isInfinite] using hb
  have hn : b.isNaN = false := by simp [isNaN, hm]
  have hz : b.isZero = false := by simp [isZero, hm, infinityMagnitude]
  change rem a b = a
  simp [rem, ha, hn, hz, hb]

theorem rem_isNaN_iff (a b : Number) : (a % b).isNaN ↔ a.isNaN ∨ a.isInfinite ∨ b.isNaN ∨ b.isZero := by
  cases ha : a.isFinite with
  | false =>
    have hnan : a % b = nan := by
      change rem a b = nan
      simp [rem, ha]
    have h := isNaN_or_isInfinite ha
    rw [hnan]
    exact iff_of_true rfl (by rw [← or_assoc]; exact .inl h)
  | true =>
    rw [isNaN_of_isFinite ha, isInfinite_of_isFinite ha]
    by_cases h : b.isNaN ∨ b.isZero
    · have hnan : a % b = nan := by
        change rem a b = nan
        rcases h with h | h <;> simp [rem, ha, h]
      rw [hnan]
      exact iff_of_true rfl (.inr (.inr h))
    · obtain ⟨hn, hz⟩ := not_or.mp h
      rw [Bool.not_eq_true] at hn hz
      have hfin : (a % b).isFinite := by
        cases hb : b.isFinite with
        | true => exact (rem_units ha hb hz).1
        | false =>
          have hi := (isNaN_or_isInfinite hb).resolve_left (by simp [hn])
          rw [rem_of_isInfinite ha hi]
          exact ha
      simp [isNaN_of_isFinite hfin, hn, hz]

theorem execute_mod {s : State} {a b : Number} {rest : Stack} (h : s.stack = b :: a :: rest) :
    Action.execute .mod s = .ok .quiet { s with stack := (a % b) :: rest } := by
  have he : Instruction.Ends s (Opcode.mod.instruction) (.ok .quiet { s with stack := [a % b].reverse ++ rest }) :=
    @Instruction.Ends.operate s _ [a, b] rest h rfl
  exact he.execute_eq

theorem ofRatio_negative (negative : Bool) (num den : Nat) : (ofRatio negative num den).negative = negative := rfl

theorem rem_negative {a b : Number} (ha : a.isFinite) (hb : b.isFinite) (h : b.isZero = false) :
    (a % b).negative = a.negative := by
  rw [rem_of_isFinite ha hb h, ofRatio_negative]

theorem rem_truncates :
    (∀ a b : Number, a.isFinite → b.isFinite → b.isZero = false →
        (a % b).isFinite ∧ (a % b).value = a.value - b.value * towardZero (a.value / b.value) ∧
          |(a % b).value| < |b.value| ∧ (a % b).negative = a.negative) ∧
      (∀ a b : Number, (a % b).isNaN ↔ a.isNaN ∨ a.isInfinite ∨ b.isNaN ∨ b.isZero) ∧
      (∀ a b : Number, a.isFinite → b.isInfinite → a % b = a) ∧
      ∀ (s : State) (a b : Number) (rest : Stack), s.stack = b :: a :: rest →
        Action.execute .mod s = .ok .quiet { s with stack := (a % b) :: rest } := by
  refine ⟨?_, rem_isNaN_iff, ?_, ?_⟩
  · intro a b ha hb h
    exact ⟨(rem_units ha hb h).1, rem_value ha hb h, abs_rem_value_lt ha hb h, rem_negative ha hb h⟩
  · intro a b ha hb
    exact rem_of_isInfinite ha hb
  · intro s a b rest h
    exact execute_mod h

theorem rem_truncates_farApart : (ofBits 0xFFEFFFFFFFFFFFFF).isFinite ∧ (ofBits 3).isFinite ∧
    (ofBits 3).isZero = false ∧ ofBits 0xFFEFFFFFFFFFFFFF % ofBits 3 = ofBits 0x8000000000000002 ∧
    (ofBits 0x8000000000000002).value = (ofBits 0xFFEFFFFFFFFFFFFF).value -
      (ofBits 3).value * towardZero ((ofBits 0xFFEFFFFFFFFFFFFF).value / (ofBits 3).value) := by
  have ha : (ofBits 0xFFEFFFFFFFFFFFFF).isFinite := by decide
  have hb : (ofBits 3).isFinite := by decide
  have hz : (ofBits 3).isZero = false := by decide
  have hrem : ofBits 0xFFEFFFFFFFFFFFFF % ofBits 3 = ofBits 0x8000000000000002 := by decide +kernel
  exact ⟨ha, hb, hz, hrem, hrem ▸ (rem_truncates.1 _ _ ha hb hz).2.1⟩

end StackMachine.Number
