import Mathlib.Data.Int.ModEq
import StackMachine.Proofs.Exactness

namespace StackMachine.Number

theorem truncate_eq_value (x : Number) : x.truncate = if x.value < 0 then ⌈x.value⌉ else ⌊x.value⌋ :=
  (towardZero_div_natCast x.units unitsPerOne).symm

theorem isZero_of_isWhole {x : Number} {n : Int} (h : x.IsWhole n) (hn : n ≠ 0) : x.isZero = false := by
  rw [isZero, beq_eq_false_iff_ne]
  intro hz
  have hu : x.units = 0 := by simp [units, absUnits, (magnitudeUnits_eq_zero_iff x.magnitude).mpr hz]
  rw [h.2] at hu
  exact mul_ne_zero hn (Int.natCast_pos.mpr unitsPerOne_pos).ne' hu

theorem rem_isWhole {a b : Number} {m n : Int} (ha : a.IsWhole m) (hb : b.IsWhole n) (hn : n ≠ 0) :
    (a % b).IsWhole (m.tmod n) := by
  obtain ⟨hf, hu⟩ := rem_units ha.1 hb.1 (isZero_of_isWhole hb hn)
  refine ⟨hf, ?_⟩
  rw [hu, ha.2, hb.2, Int.mul_comm m, Int.mul_comm n, Int.mul_tmod_mul_of_pos _ _ (Int.natCast_pos.mpr unitsPerOne_pos),
    Int.mul_comm]

theorem less_zero_of_isWhole {x : Number} {n : Int} (h : x.IsWhole n) : x.less zero ↔ n < 0 := by
  have hone : (0 : Int) < unitsPerOne := Int.natCast_pos.mpr unitsPerOne_pos
  rw [less_iff_units h.1 rfl, h.2]
  change n * unitsPerOne < 0 ↔ n < 0
  rw [← Int.not_le, ← Int.not_le, Int.mul_nonneg_iff_of_pos_right hone]

theorem abs_isWhole {x : Number} {n : Int} (h : x.IsWhole n) : x.abs.IsWhole n.natAbs := by
  refine ⟨h.1, ?_⟩
  have habs : x.abs.units = x.units.natAbs := by
    change (x.absUnits : Int) = _
    rw [units]
    split <;> simp
  rw [habs, h.2, Int.natAbs_mul, Int.natAbs_natCast, Nat.cast_mul]

theorem euclideanRem_isWhole {a b : Number} {m : Int} {n : Nat} (ha : a.IsWhole m) (hb : b.IsWhole n) (hn : 0 < n)
    (hlt : n < 2 * binade) : (a.euclideanRem b).IsWhole (m % n) := by
  have hr := rem_isWhole ha hb (Int.natCast_pos.mpr hn).ne'
  have hmod := Int.tmod_eq_emod (a := m) (b := n)
  have hnonneg := Int.emod_nonneg m (Int.natCast_pos.mpr hn).ne'
  have hlt' := Int.emod_lt_of_pos m (Int.natCast_pos.mpr hn)
  rw [Int.natAbs_natCast] at hmod
  rw [euclideanRem]
  by_cases hneg : m.tmod n < 0
  · rw [if_pos ((less_zero_of_isWhole hr).mpr hneg)]
    have hsum : m.tmod n + (n : Int).natAbs = m % n := by
      rw [Int.natAbs_natCast]
      split at hmod <;> omega
    rw [← hsum]
    apply add_isWhole hr (abs_isWhole hb)
    rw [hsum]
    omega
  · rw [if_neg (mt (less_zero_of_isWhole hr).mp hneg)]
    have heq : m.tmod n = m % n := by
      split at hmod <;> omega
    exact heq ▸ hr

theorem toWord_of_isWhole {x : Number} {n : Nat} (h : x.IsWhole n) (hn : n < indexCount) :
    x.toWord = UInt64.ofNat n := by
  obtain ⟨hf, hu, hs⟩ := (isWhole_natCast_iff x n).mp h
  have hdiv : min (x.absUnits / unitsPerOne) (indexCount - 1) = n := by
    rw [hu, Nat.mul_div_cancel _ unitsPerOne_pos]
    omega
  rw [toWord, isNaN_of_isFinite hf, hdiv, Bool.false_or]
  split
  · rename_i hneg
    have hz : x.magnitude = 0 := hs.resolve_left (by simp [hneg])
    rw [absUnits, hz, (magnitudeUnits_eq_zero_iff 0).mpr rfl, Nat.zero_div] at hdiv
    rw [← hdiv]
    rfl
  · rfl

theorem toInt32_of_word (n : Int) : (UInt64.ofNat (n % int32Count).toNat).toUInt32.toInt32 = Int32.ofInt n := by
  have hnonneg : 0 ≤ n % (int32Count : Int) := Int.emod_nonneg n (by decide)
  apply Int32.toBitVec_inj.mp
  apply BitVec.eq_of_toNat_eq
  simp [int32Count] at *
  omega

theorem toInt32_eq {x : Number} (h : x.isFinite) : x.toInt32 = Int32.ofInt x.truncate := by
  have hcount : (ofNat int32Count).IsWhole int32Count := ofNat_isWhole (by decide)
  have hrem := euclideanRem_isWhole (wholePart_isWhole h) hcount (by decide) (by decide)
  have hnonneg : 0 ≤ x.truncate % (int32Count : Int) := Int.emod_nonneg _ (by decide)
  have hlt : x.truncate % (int32Count : Int) < int32Count := Int.emod_lt_of_pos _ (by decide)
  have hword : (x.truncate % (int32Count : Int)).toNat < indexCount := by
    simp only [int32Count, indexCount] at *
    omega
  rw [toInt32, if_pos h, ← toInt32_of_word]
  rw [← Int.toNat_of_nonneg hnonneg] at hrem
  rw [toWord_of_isWhole hrem hword]

theorem truncate_of_isWhole {x : Number} {n : Int} (h : x.IsWhole n) : x.truncate = n := by
  rw [truncate, h.2, Int.mul_tdiv_cancel _ (Int.natCast_pos.mpr unitsPerOne_pos).ne']

structure IsWord (x : Number) (n : Int32) : Prop where
  coerced : x.toInt32 = n
  exact : x.IsWhole n.toInt
  negative : x.negative = decide (n.toInt < 0)

theorem ofInt32_isWord (n : Int32) : (ofInt32 n).IsWord n := by
  have hlo := n.le_toInt
  have hhi := n.toInt_lt
  have hw : (ofInt32 n).IsWhole n.toInt := by
    apply ofInt_isWhole
    simp only [binade]
    omega
  refine ⟨?_, hw, rfl⟩
  rw [toInt32_eq hw.1, truncate_of_isWhole hw, Int32.ofInt_toInt]

theorem int32_unique {x : Number} (h : x.isFinite) (n : Int) : n = x.toInt32.toInt ↔
    -2 ^ 31 ≤ n ∧ n < 2 ^ 31 ∧ n ≡ x.truncate [ZMOD 2 ^ 32] := by
  rw [toInt32_eq h, Int32.toInt_ofInt, Int.ModEq, Int.bmod_def, Int32.size]
  split <;> omega

theorem not_and_words (m n : Int32) : ~~~(m &&& n) = ~~~m ||| ~~~n := by
  apply Int32.toBitVec_inj.mp
  simp [BitVec.not_and]

theorem bitwise_on_words :
    (∀ x : Number, x.isFinite → ∀ n : Int, n = x.toInt32.toInt ↔
        -2 ^ 31 ≤ n ∧ n < 2 ^ 31 ∧ n ≡ (if x.value < 0 then ⌈x.value⌉ else ⌊x.value⌋) [ZMOD 2 ^ 32]) ∧
      (∀ x : Number, x.isFinite = false → x.toInt32 = 0) ∧
      ∀ a b : Number, (a.bitAnd b).IsWord (a.toInt32 &&& b.toInt32) ∧ (a.bitOr b).IsWord (a.toInt32 ||| b.toInt32) ∧
        a.bitNot.IsWord (~~~a.toInt32) ∧ (a.bitAnd b).bitNot = a.bitNot.bitOr b.bitNot ∧
        a.bitNot.bitNot = a.bitOr zero := by
  refine ⟨?_, ?_, ?_⟩
  · intro x h n
    rw [← truncate_eq_value, int32_unique h]
  · intro x h
    simp [toInt32, h]
  · intro a b
    have hand := ofInt32_isWord (a.toInt32 &&& b.toInt32)
    have hnot (x : Number) : x.bitNot.IsWord (~~~x.toInt32) := ofInt32_isWord (~~~x.toInt32)
    refine ⟨hand, ofInt32_isWord _, hnot a, ?_, ?_⟩
    · rw [bitNot, bitAnd, hand.coerced, bitOr, (hnot a).coerced, (hnot b).coerced, not_and_words]
    · have hw := signedZero_isWhole false
      have hzero : zero.toInt32 = 0 := (toInt32_eq hw.1).trans (congrArg Int32.ofInt (truncate_of_isWhole hw))
      rw [bitNot, (hnot a).coerced, bitOr, hzero]
      simp

theorem bitwise_on_words_beyond : (ofBits 0xC1F0000000180000).isFinite ∧
    (ofBits 0xC1F0000000180000).toInt32.toInt = -1 ∧ (infinity true).isFinite = false ∧
    (infinity true).toInt32 = 0 := by
  obtain ⟨hfinite, hother, _⟩ := bitwise_on_words
  have hf : (ofBits 0xC1F0000000180000).isFinite := by decide
  have hi : (infinity true).isFinite = false := by decide
  refine ⟨hf, ((hfinite _ hf (-1)).mpr ⟨by decide, by decide, ?_⟩).symm, hi, hother _ hi⟩
  decide +kernel

end StackMachine.Number
