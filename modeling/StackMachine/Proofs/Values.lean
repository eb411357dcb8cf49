import Mathlib.Tactic.Ring
import StackMachine.Proofs.Operands

namespace StackMachine

namespace Number

theorem exists_significand (m : Nat) : ∃ shift significand, m = shift * binade + significand ∧
    magnitudeUnits m = significand * 2 ^ shift ∧ significand < 2 * binade ∧
    (shift = 0 ∨ binade ≤ significand) := by
  refine ⟨m / binade - 1, m - (m / binade - 1) * binade, ?_, Nat.shiftLeft_eq _ _, ?_, ?_⟩ <;>
  · have h := Nat.div_add_mod m binade
    have hlt := Nat.mod_lt m (show 0 < binade by decide)
    simp only [binade] at *
    omega

theorem magnitudeUnits_strictMono : StrictMono magnitudeUnits := by
  intro m n hmn
  obtain ⟨s, f, hm, hum, hfm, hs⟩ := exists_significand m
  obtain ⟨t, g, hn, hun, hgn, ht⟩ := exists_significand n
  rw [hum, hun]
  have hst : s ≤ t := by
    simp only [binade] at *
    omega
  rcases Nat.eq_or_lt_of_le hst with rfl | hlt
  · exact Nat.mul_lt_mul_of_pos_right (by omega) (Nat.two_pow_pos s)
  · have hg : binade ≤ g := by omega
    calc f * 2 ^ s < 2 * binade * 2 ^ s := Nat.mul_lt_mul_of_pos_right hfm (Nat.two_pow_pos s)
      _ = binade * 2 ^ (s + 1) := by ring
      _ ≤ binade * 2 ^ t := Nat.mul_le_mul_left _ (Nat.pow_le_pow_right (by decide) hlt)
      _ ≤ g * 2 ^ t := Nat.mul_le_mul_right _ hg

theorem key_lt_iff (a b : Number) : a.key < b.key ↔ a.units < b.units := by
  have hlt := magnitudeUnits_strictMono.lt_iff_lt (a := a.magnitude) (b := b.magnitude)
  have hgt := magnitudeUnits_strictMono.lt_iff_lt (a := b.magnitude) (b := a.magnitude)
  have ha := magnitudeUnits_eq_zero_iff a.magnitude
  have hb := magnitudeUnits_eq_zero_iff b.magnitude
  simp only [key, units, absUnits]
  split <;> split <;> omega

theorem key_eq_iff (a b : Number) : a.key = b.key ↔ a.units = b.units := by
  have hlt := key_lt_iff a b
  have hgt := key_lt_iff b a
  omega

theorem isNaN_of_isFinite {x : Number} (h : x.isFinite) : x.isNaN = false := by
  simp only [isFinite, isNaN, decide_eq_true_eq, decide_eq_false_iff_not] at *
  omega

theorem isNaN_or_isInfinite {x : Number} (h : x.isFinite = false) : x.isNaN ∨ x.isInfinite := by
  simp only [isFinite, isNaN, isInfinite, decide_eq_false_iff_not, decide_eq_true_eq, beq_iff_eq] at *
  omega

theorem less_iff_units {a b : Number} (ha : a.isFinite) (hb : b.isFinite) : a.less b ↔ a.units < b.units := by
  rw [less_iff, key_lt_iff]
  simp [isNaN_of_isFinite ha, isNaN_of_isFinite hb]

theorem equal_iff_units {a b : Number} (ha : a.isFinite) (hb : b.isFinite) : a.equal b ↔ a.units = b.units := by
  rw [equal_iff, key_eq_iff]
  simp [isNaN_of_isFinite ha, isNaN_of_isFinite hb]

end Number

theorem roundDiv_mul_right (n : Nat) {den : Nat} (h : 0 < den) : roundDiv (n * den) den = n := by
  simp [roundDiv, Nat.mul_div_cancel _ h, h]

theorem roundDiv_le (num den : Nat) : roundDiv num den ≤ num / den + 1 := by
  simp only [roundDiv]
  split <;> omega

namespace Number

theorem log2_significand {significand shift : Nat} (h : binade ≤ significand) (hlt : significand < 2 * binade) :
    (significand * 2 ^ shift).log2 = 52 + shift := by
  have hb : binade = 2 ^ 52 := by decide
  rw [hb] at h hlt
  have hz : significand * 2 ^ shift ≠ 0 := Nat.mul_ne_zero (by omega) (Nat.two_pow_pos shift).ne'
  rw [Nat.log2_eq_iff hz]
  constructor
  · rw [pow_add]
    exact Nat.mul_le_mul_right _ h
  · calc significand * 2 ^ shift < 2 * 2 ^ 52 * 2 ^ shift := Nat.mul_lt_mul_of_pos_right hlt (Nat.two_pow_pos _)
      _ = 2 ^ (52 + shift + 1) := by ring

def roundingShift (num den : Nat) : Nat := (num / den).log2 - 52

theorem roundMagnitude_eq (num den : Nat) : roundMagnitude num den = min infinityMagnitude
    (roundingShift num den * binade + roundDiv num (den * 2 ^ roundingShift num den)) := by
  rw [← Nat.shiftLeft_eq]
  rfl

theorem roundDiv_le_two_binade (num den : Nat) :
    roundDiv num (den * 2 ^ roundingShift num den) ≤ 2 * binade := by
  have hlt : num / den < 2 * binade * 2 ^ roundingShift num den := by
    calc num / den < 2 ^ ((num / den).log2 + 1) := Nat.lt_log2_self
      _ ≤ 2 ^ (53 + roundingShift num den) := Nat.pow_le_pow_right (by decide) (by rw [roundingShift]; omega)
      _ = 2 * binade * 2 ^ roundingShift num den := pow_add 2 53 _
  have hround := roundDiv_le num (den * 2 ^ roundingShift num den)
  rw [← Nat.div_div_eq_div_mul] at hround
  have hdiv := Nat.div_lt_of_lt_mul (Nat.mul_comm .. ▸ hlt)
  omega

theorem roundMagnitude_magnitudeUnits {m den : Nat} (hm : m ≤ infinityMagnitude) (hd : 0 < den) :
    roundMagnitude (magnitudeUnits m * den) den = m := by
  obtain ⟨s, f, rfl, hu, hf, hs⟩ := exists_significand m
  have hshift : roundingShift (magnitudeUnits (s * binade + f) * den) den = s := by
    rw [roundingShift, Nat.mul_div_cancel _ hd, hu]
    rcases hs with rfl | hs
    · rcases Nat.eq_zero_or_pos f with rfl | hpos
      · rfl
      · have hlog : f.log2 < 53 := (Nat.log2_lt hpos.ne').mpr hf
        rw [Nat.pow_zero, Nat.mul_one]
        omega
    · rw [log2_significand hs hf]
      omega
  rw [roundMagnitude_eq, hshift, hu, Nat.mul_assoc, Nat.mul_comm (2 ^ s),
    roundDiv_mul_right _ (Nat.mul_pos hd (Nat.two_pow_pos s)), Nat.min_eq_right hm]

theorem roundMagnitude_lt_infinity {num den k : Nat} (h : num / den < 2 ^ k) (hk : k ≤ 2048) :
    roundMagnitude num den < infinityMagnitude := by
  have hlog : (num / den).log2 ≤ k := by
    rcases Nat.eq_zero_or_pos (num / den) with h0 | hpos
    · rw [h0, Nat.log2_zero]
      omega
    · exact Nat.le_of_lt ((Nat.log2_lt hpos.ne').mpr h)
  have hshift : roundingShift num den ≤ 1996 := by
    rw [roundingShift]
    omega
  have hround := roundDiv_le_two_binade num den
  rw [roundMagnitude_eq]
  simp only [binade, infinityMagnitude] at *
  omega

end Number

end StackMachine
