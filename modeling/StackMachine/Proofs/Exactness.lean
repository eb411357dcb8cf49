import Mathlib.Algebra.Order.Field.Rat
import Mathlib.Data.Rat.Floor
import StackMachine.Number.Arithmetic
import StackMachine.Proofs.Rounding

namespace StackMachine

def towardZero (q : ℚ) : ℤ := if q < 0 then ⌈q⌉ else ⌊q⌋

theorem towardZero_div_natCast (m : ℤ) (n : ℕ) : towardZero (m / n) = m.tdiv n := by
  rw [towardZero]
  by_cases h : (m / n : ℚ) < 0
  · have hm : m < 0 := by
      by_contra hm
      exact absurd h (not_lt.mpr (div_nonneg (Int.cast_nonneg (not_lt.mp hm)) n.cast_nonneg))
    rw [if_pos h, Rat.ceil_intCast_div_natCast, ← Int.tdiv_eq_ediv_of_nonneg (by omega), Int.neg_tdiv, Int.neg_neg]
  · rw [if_neg h, Rat.floor_intCast_div_natCast]
    rcases Int.lt_or_le m 0 with hm | hm
    · have hn : n = 0 := by
        by_contra hn
        exact h (div_neg_of_neg_of_pos (Int.cast_lt_zero.mpr hm) (Nat.cast_pos.mpr (Nat.pos_of_ne_zero hn)))
      simp [hn]
    · rw [Int.tdiv_eq_ediv_of_nonneg hm]

theorem towardZero_div (m n : ℤ) : towardZero (m / n) = m.tdiv n := by
  obtain ⟨k, rfl | rfl⟩ := n.eq_nat_or_neg
  · exact towardZero_div_natCast m k
  · have hneg : (m / (-k : ℤ) : ℚ) = (-m : ℤ) / k := by
      push_cast
      rw [div_neg, neg_div]
    rw [hneg, towardZero_div_natCast, Int.tdiv_neg, Int.neg_tdiv]

namespace Number

def value (x : Number) : ℚ := x.units / unitsPerOne

theorem unitsPerOne_cast_pos : (0 : ℚ) < unitsPerOne := Nat.cast_pos.mpr unitsPerOne_pos

def IsShort (n : Nat) : Prop := ∃ significand shift, n = significand * 2 ^ shift ∧ significand < 2 * binade

theorem isShort_absUnits (x : Number) : IsShort x.absUnits := by
  obtain ⟨shift, significand, _, hu, hlt, _⟩ := exists_significand x.magnitude
  exact ⟨significand, shift, hu, hlt⟩

theorem isShort_whole {n : Nat} (h : n ≤ 2 * binade) : IsShort (n * unitsPerOne) := by
  rcases Nat.lt_or_eq_of_le h with hlt | rfl
  · exact ⟨n, fractionBits, by rw [unitsPerOne_eq], hlt⟩
  · refine ⟨binade, fractionBits + 1, ?_, by decide⟩
    rw [unitsPerOne_eq, pow_succ]
    ring

theorem exists_magnitude (shift : Nat) {significand : Nat} (h : significand < 2 * binade) :
    ∃ m, magnitudeUnits m = significand * 2 ^ shift := by
  induction shift generalizing significand with
  | zero => exact ⟨_, magnitudeUnits_of_significand h.le (.inl rfl)⟩
  | succ shift ih =>
    by_cases hb : binade ≤ significand
    · exact ⟨_, magnitudeUnits_of_significand h.le (.inr hb)⟩
    · have hlt : 2 * significand < 2 * binade := by omega
      obtain ⟨m, hm⟩ := ih hlt
      refine ⟨m, ?_⟩
      rw [hm, pow_succ]
      ring

theorem ofRatio_exact {n : Nat} (h : IsShort n) (hlt : n < magnitudeUnits infinityMagnitude) (negative : Bool) :
    (ofRatio negative n 1).isFinite ∧ (ofRatio negative n 1).absUnits = n := by
  obtain ⟨significand, shift, rfl, hs⟩ := h
  obtain ⟨m, hm⟩ := exists_magnitude shift hs
  rw [← hm] at hlt ⊢
  have hmag := magnitudeUnits_strictMono.lt_iff_lt.mp hlt
  have hround : (ofRatio negative (magnitudeUnits m) 1).magnitude = m := by
    have he := roundMagnitude_magnitudeUnits hmag.le Nat.one_pos
    rwa [Nat.mul_one] at he
  rw [isFinite, absUnits, hround]
  exact ⟨decide_eq_true hmag, rfl⟩

theorem absUnits_lt {x : Number} (h : x.isFinite) : x.absUnits < magnitudeUnits infinityMagnitude :=
  magnitudeUnits_strictMono (of_decide_eq_true h)

theorem whole_lt_infinity {n : Nat} (h : n ≤ 2 * binade) : n * unitsPerOne < magnitudeUnits infinityMagnitude := by
  calc n * unitsPerOne ≤ 2 * binade * unitsPerOne := Nat.mul_le_mul_right _ h
    _ < magnitudeUnits infinityMagnitude := by decide +kernel

theorem IsShort.mod {a b : Nat} (ha : IsShort a) (hb : IsShort b) (h : b ≠ 0) : IsShort (a % b) := by
  obtain ⟨f, s, rfl, hf⟩ := ha
  obtain ⟨g, t, rfl, hg⟩ := hb
  -- The remainder is a multiple of the smaller of the two places, and less than the operand with that place.
  rcases Nat.le_total s t with hst | hts
  · obtain ⟨d, rfl⟩ := Nat.exists_eq_add_of_le hst
    have hmod : f * 2 ^ s % (g * 2 ^ (s + d)) = f % (g * 2 ^ d) * 2 ^ s := by
      rw [pow_add, Nat.mul_comm (2 ^ s), ← Nat.mul_assoc, Nat.mul_mod_mul_right]
    exact ⟨_, s, hmod, (Nat.mod_le _ _).trans_lt hf⟩
  · obtain ⟨d, rfl⟩ := Nat.exists_eq_add_of_le hts
    have hmod : f * 2 ^ (t + d) % (g * 2 ^ t) = f * 2 ^ d % g * 2 ^ t := by
      rw [pow_add, Nat.mul_comm (2 ^ t), ← Nat.mul_assoc, Nat.mul_mod_mul_right]
    have hgpos : 0 < g := Nat.pos_of_ne_zero (by rintro rfl; simp at h)
    exact ⟨_, t, hmod, (Nat.mod_lt _ hgpos).trans hg⟩

theorem units_ofRatio {n : Nat} (h : IsShort n) (hlt : n < magnitudeUnits infinityMagnitude) (negative : Bool) :
    (ofRatio negative n 1).isFinite ∧ (ofRatio negative n 1).units = if negative then -(n : Int) else n := by
  obtain ⟨hf, ha⟩ := ofRatio_exact h hlt negative
  refine ⟨hf, ?_⟩
  rw [units, ha]
  rfl

theorem ofInt_isWhole {n : Int} (h : n.natAbs ≤ 2 * binade) : (ofInt n).IsWhole n := by
  obtain ⟨hf, hu⟩ := units_ofRatio (isShort_whole h) (whole_lt_infinity h) (decide (n < 0))
  refine ⟨hf, hu.trans ?_⟩
  by_cases hn : n < 0
  · simp only [hn, decide_true, ↓reduceIte, Nat.cast_mul, ← Int.neg_mul]
    congr 1
    omega
  · simp only [hn, decide_false, Bool.false_eq_true, ↓reduceIte, Nat.cast_mul]
    congr 1
    omega

theorem ofNat_eq_ofInt (n : Nat) : ofNat n = ofInt n := by
  have hneg : decide ((n : Int) < 0) = false := decide_eq_false (by omega)
  rw [ofInt, hneg]
  rfl

theorem natCast_isWhole {n : Nat} (h : n ≤ 2 * binade) : (ofNat n).IsWhole n := by
  rw [ofNat_eq_ofInt]
  exact ofInt_isWhole h

theorem signedZero_isWhole (negative : Bool) : (signedZero negative).IsWhole 0 := by
  have hz : (signedZero negative).absUnits = 0 := (magnitudeUnits_eq_zero_iff 0).mpr rfl
  refine ⟨rfl, ?_⟩
  simp [units, hz]

theorem add_isWhole {a b : Number} {m n : Int} (ha : a.IsWhole m) (hb : b.IsWhole n)
    (h : (m + n).natAbs ≤ 2 * binade) : (a + b).IsWhole (m + n) := by
  have hsum : a.units + b.units = (m + n) * unitsPerOne := by rw [ha.2, hb.2, Int.add_mul]
  have hone : (0 : Int) < unitsPerOne := Int.natCast_pos.mpr unitsPerOne_pos
  rw [add_eq_of_isFinite ha.1 hb.1, hsum]
  by_cases hz : m + n = 0
  · rw [hz, Int.zero_mul, if_pos rfl]
    exact signedZero_isWhole _
  · have hne : (m + n) * unitsPerOne ≠ 0 := mul_ne_zero hz hone.ne'
    have hsign : decide ((m + n) * unitsPerOne < 0) = decide (m + n < 0) := by
      rw [decide_eq_decide, ← Int.not_le, ← Int.not_le, Int.mul_nonneg_iff_of_pos_right hone]
    rw [if_neg hne, hsign, Int.natAbs_mul, Int.natAbs_natCast]
    exact ofInt_isWhole h

theorem ofNat_sub_one {n : Nat} (h : n < 2 * binade) : ofNat (n + 1) - ofNat 1 = ofNat n := by
  have hone : (ofNat 1).neg = ofInt (-1) := by decide +kernel
  have hw : (ofNat (n + 1)).IsWhole ((n : Int) + 1) := natCast_isWhole h
  have hm : (ofInt (-1)).IsWhole (-1) := ofInt_isWhole (by decide)
  have hsum : (ofNat (n + 1)).units + (ofInt (-1)).units = (n * unitsPerOne : Nat) := by
    rw [hw.2, hm.2]
    push_cast
    ring
  change ofNat (n + 1) + (ofNat 1).neg = ofNat n
  rw [hone, add_eq_of_isFinite hw.1 hm.1, hsum]
  by_cases hz : n = 0
  · subst hz
    decide +kernel
  · have hne : ((n * unitsPerOne : Nat) : Int) ≠ 0 := by
      have := Nat.mul_pos (Nat.pos_of_ne_zero hz) unitsPerOne_pos
      omega
    have hneg : decide (((n * unitsPerOne : Nat) : Int) < 0) = false := decide_eq_false (by omega)
    rw [if_neg hne, hneg, Int.natAbs_natCast]
    rfl

theorem absUnits_ne_zero {x : Number} (h : x.isZero = false) : x.absUnits ≠ 0 := by
  rw [absUnits, Ne, magnitudeUnits_eq_zero_iff]
  simpa [isZero] using h

theorem rem_of_isFinite {a b : Number} (ha : a.isFinite) (hb : b.isFinite) (h : b.isZero = false) :
    a % b = ofRatio a.negative (a.absUnits % b.absUnits) 1 := by
  change rem a b = _
  simp [rem, ha, isNaN_of_isFinite hb, isInfinite_of_isFinite hb, h]

theorem rem_units {a b : Number} (ha : a.isFinite) (hb : b.isFinite) (h : b.isZero = false) :
    (a % b).isFinite ∧ (a % b).units = a.units.tmod b.units := by
  have hlt := (Nat.mod_le a.absUnits b.absUnits).trans_lt (absUnits_lt ha)
  obtain ⟨hf, hu⟩ := units_ofRatio ((isShort_absUnits a).mod (isShort_absUnits b) (absUnits_ne_zero h)) hlt a.negative
  rw [rem_of_isFinite ha hb h]
  refine ⟨hf, hu.trans ?_⟩
  rw [units, units]
  cases a.negative <;> cases b.negative <;>
    simp only [Bool.false_eq_true, ↓reduceIte, Int.neg_tmod, Int.tmod_neg, Int.ofNat_tmod]

theorem truncate_eq (x : Number) :
    x.truncate = if x.negative then -((x.absUnits / unitsPerOne : Nat) : Int) else (x.absUnits / unitsPerOne : Nat) := by
  rw [truncate, units]
  split
  · rw [Int.neg_tdiv, Int.ofNat_tdiv]
  · rw [Int.ofNat_tdiv]

theorem isShort_wholePart (x : Number) : IsShort (x.absUnits / unitsPerOne * unitsPerOne) := by
  obtain ⟨f, s, hu, hf⟩ := isShort_absUnits x
  rcases Nat.le_total fractionBits s with hs | hs
  · obtain ⟨d, rfl⟩ := Nat.exists_eq_add_of_le hs
    have hdvd : unitsPerOne ∣ x.absUnits := by
      rw [hu, unitsPerOne_eq, pow_add]
      exact Dvd.intro_left (f * 2 ^ d) (by ring)
    rw [Nat.div_mul_cancel hdvd]
    exact isShort_absUnits x
  · apply isShort_whole
    apply Nat.le_of_lt
    apply Nat.div_lt_of_lt_mul
    calc x.absUnits = f * 2 ^ s := hu
      _ < 2 * binade * 2 ^ s := Nat.mul_lt_mul_of_pos_right hf (Nat.two_pow_pos s)
      _ ≤ 2 * binade * 2 ^ fractionBits := Nat.mul_le_mul_left _ (Nat.pow_le_pow_right (by decide) hs)
      _ = unitsPerOne * (2 * binade) := by rw [unitsPerOne_eq, Nat.mul_comm]

theorem wholePart_isWhole {x : Number} (h : x.isFinite) : x.wholePart.IsWhole x.truncate := by
  have habs : x.truncate.natAbs = x.absUnits / unitsPerOne := by
    rw [truncate_eq]
    split
    · rw [Int.natAbs_neg, Int.natAbs_natCast]
    · rw [Int.natAbs_natCast]
  have hlt := (Nat.div_mul_le_self x.absUnits unitsPerOne).trans_lt (absUnits_lt h)
  obtain ⟨hf, hu⟩ := units_ofRatio (isShort_wholePart x) hlt x.negative
  rw [wholePart, if_pos h, habs, truncate_eq]
  refine ⟨hf, hu.trans ?_⟩
  split <;> simp

end Number

end StackMachine
