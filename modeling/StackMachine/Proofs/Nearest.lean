import Mathlib.Tactic.FieldSimp
import Mathlib.Tactic.Linarith
import StackMachine.Decimal.Basic
import StackMachine.Proofs.Exactness

namespace StackMachine

theorem roundDiv_even_of_half {num den : Nat} (h : 0 < den)
    (hhalf : 2 * (roundDiv num den * den) = 2 * num + den ∨ 2 * num = 2 * (roundDiv num den * den) + den) :
    roundDiv num den % 2 = 0 := by
  have hdiv := Nat.div_add_mod' num den
  have hmod := Nat.mod_lt num h
  simp only [roundDiv] at *
  split at hhalf
  · rw [if_pos ‹_›]
    omega
  · rw [if_neg ‹_›]
    rw [Nat.succ_mul (num / den) den] at hhalf
    omega

theorem roundDiv_nearest (num : Nat) {den : Nat} (h : 0 < den) (k : Nat) :
    ((roundDiv num den * den : Nat) - num : Int).natAbs ≤ ((k * den : Nat) - num : Int).natAbs ∧
      (k ≠ roundDiv num den →
        ((k * den : Nat) - num : Int).natAbs = ((roundDiv num den * den : Nat) - num : Int).natAbs →
        roundDiv num den % 2 = 0) := by
  have hbounds := roundDiv_bounds num h
  have heven : _ → roundDiv num den % 2 = 0 := roundDiv_even_of_half h
  rcases Nat.lt_trichotomy k (roundDiv num den) with hlt | rfl | hgt
  · have hmul := Nat.mul_le_mul_right den (Nat.succ_le_of_lt hlt)
    rw [Nat.succ_mul] at hmul
    refine ⟨by omega, fun _ heq => heven (by omega)⟩
  · exact ⟨Nat.le_refl _, fun hne => absurd rfl hne⟩
  · have hmul := Nat.mul_le_mul_right den (Nat.succ_le_of_lt hgt)
    rw [Nat.succ_mul] at hmul
    refine ⟨by omega, fun _ heq => heven (by omega)⟩

namespace Number

theorem magnitudeUnits_grid (n shift : Nat) :
    (∃ k, magnitudeUnits n = k * 2 ^ shift) ∨ 0 < shift ∧ magnitudeUnits n < binade * 2 ^ shift := by
  obtain ⟨t, f, _, hu, hf, _⟩ := exists_significand n
  rw [hu]
  rcases Nat.lt_or_ge t shift with hlt | hge
  · refine .inr ⟨by omega, ?_⟩
    calc f * 2 ^ t < 2 * binade * 2 ^ t := Nat.mul_lt_mul_of_pos_right hf (Nat.two_pow_pos t)
      _ = binade * 2 ^ (t + 1) := by ring
      _ ≤ binade * 2 ^ shift := Nat.mul_le_mul_left _ (Nat.pow_le_pow_right (by decide) hlt)
  · refine .inl ⟨f * 2 ^ (t - shift), ?_⟩
    rw [Nat.mul_assoc, ← pow_add, Nat.sub_add_cancel hge]

/-- Infinity stands for the power of two after the greatest finite number. -/
def magnitudeValue (m : Nat) : ℚ := magnitudeUnits m / unitsPerOne

theorem magnitudeValue_strictMono : StrictMono magnitudeValue := by
  intro m n h
  have hunits : (magnitudeUnits m : ℚ) < magnitudeUnits n := Nat.cast_lt.mpr (magnitudeUnits_strictMono h)
  exact div_lt_div_of_pos_right hunits unitsPerOne_cast_pos

/-- No magnitude is nearer to `q` than `m` is, and where another is as near, `m` is the even one. -/
structure IsNearest (q : ℚ) (m : Nat) : Prop where
  le_infinity : m ≤ infinityMagnitude
  nearest : ∀ n ≤ infinityMagnitude, |magnitudeValue m - q| ≤ |magnitudeValue n - q|
  even : ∀ n ≤ infinityMagnitude, n ≠ m → |magnitudeValue n - q| = |magnitudeValue m - q| → m % 2 = 0

theorem IsNearest.not_lt {q : ℚ} {m n : Nat} (hm : IsNearest q m) (hn : IsNearest q n) : ¬ m < n := by
  intro hlt
  have heq : |magnitudeValue n - q| = |magnitudeValue m - q| :=
    le_antisymm (hn.nearest m hm.le_infinity) (hm.nearest n hn.le_infinity)
  have hmeven := hm.even n hn.le_infinity hlt.ne' heq
  have hneven := hn.even m hm.le_infinity hlt.ne heq.symm
  have hbelow : magnitudeValue m < magnitudeValue (m + 1) := magnitudeValue_strictMono (Nat.lt_succ_self m)
  have habove : magnitudeValue (m + 1) < magnitudeValue n := magnitudeValue_strictMono (by omega)
  -- The middle between the two is `q`, so what lies between them is nearer.
  have hmiddle : magnitudeValue n - q = q - magnitudeValue m := by
    rcases abs_eq_abs.mp heq with h | h <;> linarith
  have hnearer : |magnitudeValue (m + 1) - q| < |magnitudeValue n - q| := by
    rw [abs_of_pos (show 0 < magnitudeValue n - q by linarith), abs_lt]
    constructor <;> linarith
  exact absurd (hn.nearest (m + 1) (by have := hn.le_infinity; omega)) (not_le.mpr hnearer)

theorem IsNearest.unique {q : ℚ} {m n : Nat} (hm : IsNearest q m) (hn : IsNearest q n) : m = n :=
  Nat.le_antisymm (Nat.not_lt.mp (hn.not_lt hm)) (Nat.not_lt.mp (hm.not_lt hn))

theorem isNearest_infinity {q : ℚ} (h : magnitudeValue infinityMagnitude ≤ q) : IsNearest q infinityMagnitude := by
  refine ⟨Nat.le_refl _, ?_, fun _ _ _ _ => by decide⟩
  intro n hn
  have hle := magnitudeValue_strictMono.monotone hn
  rw [abs_of_nonpos (by linarith), abs_of_nonpos (by linarith)]
  linarith

theorem isNearest_zero {q : ℚ} (h0 : 0 ≤ q) (h : 2 * (q * unitsPerOne) < 1) : IsNearest q 0 := by
  have hone := unitsPerOne_cast_pos
  have hzero : magnitudeValue 0 = 0 := by
    rw [magnitudeValue, (magnitudeUnits_eq_zero_iff 0).mpr rfl, Nat.cast_zero, zero_div]
  refine ⟨Nat.zero_le _, ?_, fun _ _ _ _ => rfl⟩
  intro n _
  rw [hzero, zero_sub, abs_neg, abs_of_nonneg h0]
  rcases Nat.eq_zero_or_pos n with rfl | hpos
  · rw [hzero, zero_sub, abs_neg, abs_of_nonneg h0]
  · have hunits : 1 ≤ magnitudeUnits n := by
      have := (magnitudeUnits_eq_zero_iff n).not.mpr hpos.ne'
      omega
    have hvalue : 1 / (unitsPerOne : ℚ) ≤ magnitudeValue n :=
      div_le_div_of_nonneg_right (by exact_mod_cast hunits) hone.le
    have hq : 2 * q < 1 / (unitsPerOne : ℚ) := by
      rw [lt_div_iff₀ hone]
      linarith
    refine le_trans ?_ (le_abs_self _)
    linarith

theorem distance_eq (n num : Nat) {den : Nat} (hd : 0 < den) : |magnitudeValue n - num / (den * unitsPerOne)| =
    ((magnitudeUnits n * den : Nat) - num : Int).natAbs / (den * unitsPerOne) := by
  have hone := unitsPerOne_cast_pos
  have hden : (0 : ℚ) < den := Nat.cast_pos.mpr hd
  have hsub : magnitudeValue n - num / (den * unitsPerOne) =
      (((magnitudeUnits n * den : Nat) - num : Int) : ℚ) / (den * unitsPerOne) := by
    rw [magnitudeValue]
    push_cast
    field_simp
  rw [hsub, abs_div, abs_of_pos (mul_pos hden hone), Nat.cast_natAbs, Int.cast_abs]

theorem rounded_nearest (num : Nat) {den : Nat} (hd : 0 < den) {m : Nat}
    (hm : m = roundingShift num den * binade + roundDiv num (den * 2 ^ roundingShift num den)) (n : Nat) :
    ((magnitudeUnits m * den : Nat) - num : Int).natAbs ≤ ((magnitudeUnits n * den : Nat) - num : Int).natAbs ∧
      (n ≠ m → ((magnitudeUnits n * den : Nat) - num : Int).natAbs =
        ((magnitudeUnits m * den : Nat) - num : Int).natAbs → m % 2 = 0) := by
  have hunits := magnitudeUnits_rounded num den
  rw [← hm] at hunits
  generalize hs : roundingShift num den = s at *
  have hplace : 0 < den * 2 ^ s := Nat.mul_pos hd (Nat.two_pow_pos s)
  have hgrid : ∀ k : Nat, k * 2 ^ s * den = k * (den * 2 ^ s) := fun k => by ring
  have hparity : m % 2 = roundDiv num (den * 2 ^ s) % 2 := by
    rw [hm, binade]
    omega
  rw [hunits, hgrid, hparity]
  rcases magnitudeUnits_grid n s with ⟨k, hk⟩ | ⟨hpos, hlt⟩
  · obtain ⟨hnear, heven⟩ := roundDiv_nearest num hplace k
    rw [hk, hgrid]
    refine ⟨hnear, fun hne => heven ?_⟩
    rintro rfl
    exact hne (magnitudeUnits_strictMono.injective (hk.trans hunits.symm))
  · -- Below the first significand lies nothing that is as near as that significand itself.
    have hle : binade * (den * 2 ^ s) ≤ num := by
      have hdiv : binade * 2 ^ roundingShift num den ≤ num / den := binade_mul_le_div (by omega)
      rw [hs, Nat.le_div_iff_mul_le hd, hgrid] at hdiv
      exact hdiv
    have hmul : magnitudeUnits n * den < binade * (den * 2 ^ s) := by
      rw [← hgrid]
      exact Nat.mul_lt_mul_of_pos_right hlt hd
    obtain ⟨hnear, _⟩ := roundDiv_nearest num hplace binade
    constructor <;> omega

theorem isNearest_roundMagnitude (num : Nat) {den : Nat} (hd : 0 < den) :
    IsNearest (num / (den * unitsPerOne)) (roundMagnitude num den) := by
  have hscale : (0 : ℚ) < den * unitsPerOne := mul_pos (Nat.cast_pos.mpr hd) unitsPerOne_cast_pos
  rw [roundMagnitude_eq]
  generalize hm : roundingShift num den * binade + roundDiv num (den * 2 ^ roundingShift num den) = m
  have hnear := rounded_nearest num hd hm.symm
  rcases Nat.lt_or_ge infinityMagnitude m with hlt | hle
  · rw [Nat.min_eq_left hlt.le]
    apply isNearest_infinity
    -- Otherwise infinity would be nearer than `m`, which is above it.
    obtain ⟨hdist, _⟩ := hnear infinityMagnitude
    have hunits := Nat.mul_lt_mul_of_pos_right (magnitudeUnits_strictMono hlt) hd
    rw [le_div_iff₀ hscale, magnitudeValue, div_mul_eq_mul_div, div_le_iff₀ unitsPerOne_cast_pos, ← mul_assoc]
    have hle : magnitudeUnits infinityMagnitude * den ≤ num := by omega
    exact mul_le_mul_of_nonneg_right (by exact_mod_cast hle) unitsPerOne_cast_pos.le
  · rw [Nat.min_eq_right hle]
    refine ⟨hle, ?_, ?_⟩
    · intro n _
      rw [distance_eq m num hd, distance_eq n num hd]
      exact div_le_div_of_nonneg_right (by exact_mod_cast (hnear n).1) hscale.le
    · intro n _ hne heq
      rw [distance_eq m num hd, distance_eq n num hd, div_left_inj' hscale.ne'] at heq
      exact (hnear n).2 hne (by exact_mod_cast heq)

theorem infinity_le_pow {k : Nat} (hk : 400 ≤ k) : magnitudeValue infinityMagnitude ≤ (10 : ℚ) ^ k := by
  have hunits : magnitudeUnits infinityMagnitude ≤ 10 ^ k * unitsPerOne := by
    calc magnitudeUnits infinityMagnitude ≤ 10 ^ 400 * unitsPerOne := by decide +kernel
      _ ≤ 10 ^ k * unitsPerOne := Nat.mul_le_mul_right _ (Nat.pow_le_pow_right (by decide) hk)
  rw [magnitudeValue, div_le_iff₀ unitsPerOne_cast_pos]
  exact_mod_cast hunits

end Number

namespace Decimal

def value (d : Decimal) : ℚ := d.digits * 10 ^ d.exponent

theorem value_eq (d : Decimal) :
    d.value = d.digits * 10 ^ d.exponent.toNat / 10 ^ (-d.exponent).toNat := by
  have hexponent : d.exponent = (d.exponent.toNat : Int) - ((-d.exponent).toNat : Int) := by omega
  have hpow : (10 : ℚ) ^ d.exponent = 10 ^ d.exponent.toNat / 10 ^ (-d.exponent).toNat := by
    conv_lhs => rw [hexponent, zpow_sub₀ (by norm_num), zpow_natCast, zpow_natCast]
  rw [value, hpow, mul_div_assoc]

theorem value_lt_of_vanishes {d : Decimal} (h : d.vanishes = true) : 2 * (d.value * Number.unitsPerOne) < 1 := by
  have hlog : (d.digits.log2 : Int) + 1100 < -3 * d.exponent := of_decide_eq_true h
  have hbits : d.digits.log2 + 1 + 1 + Number.fractionBits ≤ 3 * (-d.exponent).toNat := by
    rw [Number.fractionBits]
    omega
  have hpow : 2 * (d.digits * Number.unitsPerOne) < 10 ^ (-d.exponent).toNat := by
    calc 2 * (d.digits * Number.unitsPerOne)
        < 2 * (2 ^ (d.digits.log2 + 1) * Number.unitsPerOne) :=
          Nat.mul_lt_mul_of_pos_left (Nat.mul_lt_mul_of_pos_right Nat.lt_log2_self Number.unitsPerOne_pos) two_pos
      _ = 2 ^ (d.digits.log2 + 1 + 1 + Number.fractionBits) := by rw [Number.unitsPerOne_eq]; ring
      _ ≤ 2 ^ (3 * (-d.exponent).toNat) := Nat.pow_le_pow_right two_pos hbits
      _ = 8 ^ (-d.exponent).toNat := pow_mul 2 3 _
      _ ≤ 10 ^ (-d.exponent).toNat := Nat.pow_le_pow_left (by decide) _
  have hnonneg : d.exponent.toNat = 0 := by omega
  have hten : (0 : ℚ) < 10 ^ (-d.exponent).toNat := by positivity
  rw [value_eq, hnonneg, pow_zero, mul_one, div_mul_eq_mul_div, ← mul_div_assoc, div_lt_one hten]
  exact_mod_cast hpow

theorem magnitude_of_not_vanishes {d : Decimal} (h : d.vanishes = false) :
    Number.IsNearest (d.digits * 10 ^ min d.exponent.toNat 400 / 10 ^ (-d.exponent).toNat) d.magnitude := by
  have hden : 0 < 10 ^ (-d.exponent).toNat := Nat.pow_pos (by decide)
  have hround := Number.isNearest_roundMagnitude
    (d.digits * 10 ^ min d.exponent.toNat 400 * Number.unitsPerOne) hden
  rw [Nat.cast_mul, mul_div_mul_right _ _ Number.unitsPerOne_cast_pos.ne'] at hround
  push_cast at hround
  rw [magnitude, h, if_neg Bool.false_ne_true]
  exact hround

theorem magnitude_nearest (d : Decimal) : Number.IsNearest d.value d.magnitude := by
  cases hv : d.vanishes with
  | true =>
    have hnonneg : 0 ≤ d.value := by
      rw [value_eq]
      positivity
    rw [magnitude, hv, if_pos rfl]
    exact Number.isNearest_zero hnonneg (value_lt_of_vanishes hv)
  | false =>
    have hround := magnitude_of_not_vanishes hv
    rcases le_or_gt d.exponent.toNat 400 with hle | hlt
    · rwa [Nat.min_eq_left hle, ← value_eq] at hround
    · have hden : (-d.exponent).toNat = 0 := by omega
      rw [Nat.min_eq_right hlt.le, hden, pow_zero, div_one] at hround
      rw [value_eq, hden, pow_zero, div_one]
      rcases Nat.eq_zero_or_pos d.digits with hz | hpos
      · rwa [hz, Nat.cast_zero, zero_mul] at hround ⊢
      · -- Both what is rounded and the value itself are beyond the finite numbers.
        have hdigits : (1 : ℚ) ≤ d.digits := by exact_mod_cast hpos
        have hlarge : ∀ k ≥ 400, Number.magnitudeValue Number.infinityMagnitude ≤ d.digits * (10 : ℚ) ^ k := by
          intro k hk
          exact (Number.infinity_le_pow hk).trans (le_mul_of_one_le_left (by positivity) hdigits)
        rw [hround.unique (Number.isNearest_infinity (hlarge 400 (Nat.le_refl _)))]
        exact Number.isNearest_infinity (hlarge _ hlt.le)

end Decimal

end StackMachine
