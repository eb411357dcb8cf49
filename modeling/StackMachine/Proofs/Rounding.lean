import StackMachine.Number.Arithmetic
import StackMachine.Proofs.Values

namespace StackMachine

theorem le_roundDiv (num den : Nat) : num / den ≤ roundDiv num den := by
  simp only [roundDiv]
  split <;> omega

theorem roundDiv_bounds (num : Nat) {den : Nat} (h : 0 < den) :
    2 * (roundDiv num den * den) ≤ 2 * num + den ∧ 2 * num ≤ 2 * (roundDiv num den * den) + den := by
  have hdiv := Nat.div_add_mod' num den
  have hmod := Nat.mod_lt num h
  simp only [roundDiv]
  split
  · omega
  · rw [Nat.succ_mul (num / den) den]
    omega

theorem roundDiv_of_even {num den q : Nat} (h : 0 < den) (hq : q % 2 = 0) (hlo : 2 * (q * den) ≤ 2 * num + den)
    (hhi : 2 * num ≤ 2 * (q * den) + den) : roundDiv num den = q := by
  rcases Nat.lt_or_ge num (q * den) with hlt | hge
  · obtain ⟨p, rfl⟩ : ∃ p, q = p + 1 := Nat.exists_eq_succ_of_ne_zero (by rintro rfl; simp at hlt)
    rw [Nat.succ_mul p den] at hlo hhi hlt
    have hsplit : num - p * den + den * p = num ∧ num - p * den < den := by
      rw [Nat.mul_comm den p]
      omega
    obtain ⟨hd, hm⟩ := (Nat.div_mod_unique h).mpr hsplit
    simp only [roundDiv, hd, hm]
    rw [if_neg (by omega)]
  · have hsplit : num - q * den + den * q = num ∧ num - q * den < den := by
      rw [Nat.mul_comm den q]
      omega
    obtain ⟨hd, hm⟩ := (Nat.div_mod_unique h).mpr hsplit
    simp only [roundDiv, hd, hm]
    rw [if_pos (by omega)]

theorem roundDiv_mul_mul (num den : Nat) {k : Nat} (hk : 0 < k) : roundDiv (num * k) (den * k) = roundDiv num den := by
  have htwice : 2 * (num % den * k) = 2 * (num % den) * k := (Nat.mul_assoc _ _ _).symm
  simp only [roundDiv, Nat.mul_div_mul_right _ _ hk, Nat.mul_mod_mul_right, htwice, Nat.mul_lt_mul_right hk,
    Nat.mul_left_inj hk.ne']

namespace Number

theorem roundMagnitude_mul_mul (num den : Nat) {k : Nat} (hk : 0 < k) :
    roundMagnitude (num * k) (den * k) = roundMagnitude num den := by
  simp only [roundMagnitude_eq, roundingShift, Nat.mul_div_mul_right _ _ hk]
  rw [Nat.mul_right_comm den k, roundDiv_mul_mul num _ hk]

theorem roundingShift_mono {num num' : Nat} (h : num ≤ num') (den : Nat) :
    roundingShift num den ≤ roundingShift num' den := by
  have hdiv : num / den ≤ num' / den := Nat.div_le_div_right h
  have hlog : (num / den).log2 ≤ (num' / den).log2 := by
    rcases Nat.eq_zero_or_pos (num / den) with hz | hpos
    · simp [hz]
    · exact (Nat.le_log2 (by omega)).mpr ((Nat.log2_self_le hpos.ne').trans hdiv)
  exact Nat.sub_le_sub_right hlog 52

theorem binade_mul_le_div {num den : Nat} (h : 0 < roundingShift num den) :
    binade * 2 ^ roundingShift num den ≤ num / den := by
  have hlog : (num / den).log2 = 52 + roundingShift num den := by
    rw [roundingShift] at h ⊢
    omega
  have hz : num / den ≠ 0 := by
    intro hz
    rw [roundingShift, hz] at h
    exact absurd h (by decide)
  calc binade * 2 ^ roundingShift num den = 2 ^ (num / den).log2 := by rw [hlog, pow_add]; rfl
    _ ≤ num / den := Nat.log2_self_le hz

theorem binade_le_roundDiv {num den : Nat} (h : 0 < roundingShift num den) :
    binade ≤ roundDiv num (den * 2 ^ roundingShift num den) := by
  calc binade ≤ num / den / 2 ^ roundingShift num den :=
        (Nat.le_div_iff_mul_le (Nat.two_pow_pos _)).mpr (binade_mul_le_div h)
    _ = num / (den * 2 ^ roundingShift num den) := Nat.div_div_eq_div_mul ..
    _ ≤ roundDiv num (den * 2 ^ roundingShift num den) := le_roundDiv _ _

theorem magnitudeUnits_of_significand {shift significand : Nat} (hle : significand ≤ 2 * binade)
    (hs : shift = 0 ∨ binade ≤ significand) :
    magnitudeUnits (shift * binade + significand) = significand * 2 ^ shift := by
  rcases Nat.eq_or_lt_of_le hle with rfl | hlt
  · have hd : (shift * binade + 2 * binade) / binade - 1 = shift + 1 := by
      simp only [binade]
      omega
    have hm : shift * binade + 2 * binade - (shift + 1) * binade = binade := by
      simp only [binade]
      omega
    simp only [magnitudeUnits, hd, hm, Nat.shiftLeft_eq]
    ring
  · have hd : (shift * binade + significand) / binade - 1 = shift := by
      simp only [binade] at *
      omega
    simp only [magnitudeUnits, hd, Nat.shiftLeft_eq, Nat.add_sub_cancel_left]

theorem magnitudeUnits_rounded (num den : Nat) :
    magnitudeUnits (roundingShift num den * binade + roundDiv num (den * 2 ^ roundingShift num den)) =
      roundDiv num (den * 2 ^ roundingShift num den) * 2 ^ roundingShift num den := by
  apply magnitudeUnits_of_significand (roundDiv_le_two_binade num den)
  rcases Nat.eq_zero_or_pos (roundingShift num den) with hz | hpos
  · exact .inl hz
  · exact .inr (binade_le_roundDiv hpos)

theorem magnitudeUnits_roundMagnitude {num den : Nat} (h : roundMagnitude num den < infinityMagnitude) :
    magnitudeUnits (roundMagnitude num den) =
      roundDiv num (den * 2 ^ roundingShift num den) * 2 ^ roundingShift num den := by
  rw [roundMagnitude_eq] at h ⊢
  rw [Nat.min_eq_right (by omega), magnitudeUnits_rounded]

def fractionBits : Nat := 1074

theorem unitsPerOne_eq : unitsPerOne = 2 ^ fractionBits := Nat.one_shiftLeft fractionBits

structure RoundsToWhole (units n : Nat) : Prop where
  finite : roundMagnitude units 1 < infinityMagnitude
  value : magnitudeUnits (roundMagnitude units 1) = n * unitsPerOne

theorem RoundsToWhole.roundDiv_eq {units n : Nat} (h : RoundsToWhole units n) :
    roundDiv units (2 ^ roundingShift units 1) * 2 ^ roundingShift units 1 = n * unitsPerOne := by
  rw [← h.value, magnitudeUnits_roundMagnitude h.finite, Nat.one_mul]

theorem RoundsToWhole.shift_le {units n : Nat} (h : RoundsToWhole units n) (hn : n ≤ 2 ^ 52) :
    roundingShift units 1 ≤ fractionBits := by
  by_contra hlt
  have hb : binade ≤ roundDiv units (1 * 2 ^ roundingShift units 1) := binade_le_roundDiv (by omega)
  rw [Nat.one_mul] at hb
  have hpow : 2 ^ (fractionBits + 1) ≤ 2 ^ roundingShift units 1 := Nat.pow_le_pow_right (by decide) (by omega)
  have hpos := Nat.two_pow_pos fractionBits
  have hle : binade * 2 ^ (fractionBits + 1) ≤ 2 ^ 52 * 2 ^ fractionBits := by
    calc binade * 2 ^ (fractionBits + 1) ≤ roundDiv units (2 ^ roundingShift units 1) * 2 ^ roundingShift units 1 :=
          Nat.mul_le_mul hb hpow
      _ = n * 2 ^ fractionBits := by rw [h.roundDiv_eq, unitsPerOne_eq]
      _ ≤ 2 ^ 52 * 2 ^ fractionBits := Nat.mul_le_mul_right _ hn
  rw [pow_succ, binade] at hle
  omega

theorem RoundsToWhole.place_le {units n : Nat} (h : RoundsToWhole units n) (hn : n ≤ 2 ^ 52) :
    2 ^ roundingShift units 1 ≤ unitsPerOne := by
  rw [unitsPerOne_eq]
  exact Nat.pow_le_pow_right (by decide) (h.shift_le hn)

theorem RoundsToWhole.bounds {units n : Nat} (h : RoundsToWhole units n) :
    2 * (n * unitsPerOne) ≤ 2 * units + 2 ^ roundingShift units 1 ∧
      2 * units ≤ 2 * (n * unitsPerOne) + 2 ^ roundingShift units 1 := by
  have hb := roundDiv_bounds units (Nat.two_pow_pos (roundingShift units 1))
  rwa [h.roundDiv_eq] at hb

theorem lt_of_near {units n δ : Nat} (hn : n ≤ 2 ^ 52) (hN : δ ≤ unitsPerOne)
    (hhi : 2 * units ≤ 2 * (n * unitsPerOne) + δ) : units < 2 ^ (53 + fractionBits) := by
  have hpos := unitsPerOne_pos
  have hle : n * unitsPerOne ≤ 2 ^ 52 * unitsPerOne := Nat.mul_le_mul_right _ hn
  rw [pow_add, ← unitsPerOne_eq]
  omega

theorem roundingShift_le_of_lt {units : Nat} (h : units < 2 ^ (53 + fractionBits)) :
    roundingShift units 1 ≤ fractionBits := by
  rw [roundingShift, Nat.div_one]
  rcases Nat.eq_zero_or_pos units with rfl | hpos
  · simp
  · have hlog := (Nat.log2_lt hpos.ne').mpr h
    omega

theorem le_of_le_roundingShift {units : Nat} (h : fractionBits ≤ roundingShift units 1) :
    2 ^ 52 * unitsPerOne ≤ units := by
  have hlog : 52 + fractionBits ≤ units.log2 := by
    rw [roundingShift, Nat.div_one, fractionBits] at h
    rw [fractionBits]
    omega
  have hunits : units ≠ 0 := by
    rintro rfl
    exact absurd hlog (by decide)
  rw [unitsPerOne_eq, ← pow_add]
  exact (Nat.le_log2 hunits).mp hlog

theorem significand_even {units n δ : Nat} (hn : n ≤ 2 ^ 52) (hN : δ ≤ unitsPerOne)
    (hhi : 2 * units ≤ 2 * (n * unitsPerOne) + δ) :
    n * 2 ^ (fractionBits - roundingShift units 1) % 2 = 0 := by
  rcases Nat.eq_zero_or_pos (fractionBits - roundingShift units 1) with hz | hpos
  · have hge := le_of_le_roundingShift (Nat.le_of_sub_eq_zero hz)
    have hn' : n = 2 ^ 52 := by
      by_contra hne
      have hlt : (n + 1) * unitsPerOne ≤ 2 ^ 52 * unitsPerOne := Nat.mul_le_mul_right _ (by omega)
      rw [Nat.succ_mul n unitsPerOne] at hlt
      have hone := unitsPerOne_pos
      omega
    rw [hz, hn']
    decide
  · obtain ⟨d, hd⟩ := Nat.exists_eq_succ_of_ne_zero hpos.ne'
    rw [hd, pow_succ, ← Nat.mul_assoc, Nat.mul_mod_left]

theorem roundsToWhole_of_near {units n δ : Nat} (hn : n ≤ 2 ^ 52) (hN : δ ≤ unitsPerOne)
    (hδ : δ ≤ 2 ^ roundingShift units 1) (hlo : 2 * (n * unitsPerOne) ≤ 2 * units + δ)
    (hhi : 2 * units ≤ 2 * (n * unitsPerOne) + δ) : RoundsToWhole units n := by
  have hlt := lt_of_near hn hN hhi
  have hfinite : roundMagnitude units 1 < infinityMagnitude :=
    roundMagnitude_lt_infinity ((Nat.div_one units).symm ▸ hlt) (by decide)
  refine ⟨hfinite, ?_⟩
  have hsplit : n * 2 ^ (fractionBits - roundingShift units 1) * 2 ^ roundingShift units 1 = n * unitsPerOne := by
    rw [unitsPerOne_eq, Nat.mul_assoc, ← pow_add, Nat.sub_add_cancel (roundingShift_le_of_lt hlt)]
  have hround : roundDiv units (2 ^ roundingShift units 1) = n * 2 ^ (fractionBits - roundingShift units 1) :=
    roundDiv_of_even (Nat.two_pow_pos _) (significand_even hn hN hhi) (by omega) (by omega)
  rw [magnitudeUnits_roundMagnitude hfinite, Nat.one_mul, hround, hsplit]

theorem RoundsToWhole.add {units n k : Nat} (h : RoundsToWhole units n) (hk : n + k ≤ 2 ^ 52) :
    RoundsToWhole (units + k * unitsPerOne) (n + k) := by
  obtain ⟨hlo, hhi⟩ := h.bounds
  have hplace := h.place_le (by omega)
  have hmono : roundingShift units 1 ≤ roundingShift (units + k * unitsPerOne) 1 :=
    roundingShift_mono (Nat.le_add_right _ _) 1
  refine roundsToWhole_of_near hk hplace (Nat.pow_le_pow_right (by decide) hmono) ?_ ?_
  · rw [Nat.add_mul]
    omega
  · rw [Nat.add_mul]
    omega

theorem roundsToWhole_exact {n : Nat} (hn : n ≤ 2 ^ 52) : RoundsToWhole (n * unitsPerOne) n := by
  apply roundsToWhole_of_near hn (Nat.zero_le _) (Nat.zero_le _) <;> omega

theorem RoundsToWhole.eq_zero {units : Nat} (h : RoundsToWhole units 0) : units = 0 := by
  have hr := h.roundDiv_eq
  rw [Nat.zero_mul, Nat.mul_eq_zero, or_iff_left (Nat.two_pow_pos _).ne'] at hr
  rcases Nat.eq_zero_or_pos (roundingShift units 1) with hz | hpos
  · rw [hz, pow_zero] at hr
    simpa using (roundDiv_mul_right units Nat.one_pos).symm.trans (by rwa [Nat.mul_one])
  · have hb := binade_le_roundDiv hpos
    rw [Nat.one_mul, hr] at hb
    exact absurd hb (by decide)

theorem isWhole_iff_of_magnitude {x : Number} {units : Nat} (h : x.magnitude = roundMagnitude units 1) (n : Nat) :
    x.IsWhole n ↔ RoundsToWhole units n ∧ (x.negative = false ∨ x.magnitude = 0) := by
  rw [isWhole_natCast_iff, isFinite, absUnits, h, decide_eq_true_eq]
  constructor
  · rintro ⟨hf, hv, hs⟩
    exact ⟨⟨hf, hv⟩, hs⟩
  · rintro ⟨⟨hf, hv⟩, hs⟩
    exact ⟨hf, hv, hs⟩

theorem ofNat_magnitude (n : Nat) : (ofNat n).magnitude = roundMagnitude (n * unitsPerOne) 1 := rfl

theorem ofNat_isWhole {n : Nat} (hn : n ≤ 2 ^ 52) : (ofNat n).IsWhole n :=
  (isWhole_iff_of_magnitude (ofNat_magnitude n) n).mpr ⟨roundsToWhole_exact hn, .inl rfl⟩

theorem isFinite_of_add {a b : Number} (h : (a + b).isFinite) : a.isFinite ∧ b.isFinite := by
  change (add a b).isFinite = true at h
  simp only [add] at h
  split at h
  · cases h
  · rename_i hnan
    split at h
    · rename_i hinf
      split at h
      · cases h
      · simp_all [isFinite, isInfinite]
    · split at h
      · simp_all [isFinite, isInfinite]
      · simp only [Bool.or_eq_true, not_or, isNaN, isInfinite, isFinite, decide_eq_true_eq, beq_iff_eq] at *
        omega

theorem isInfinite_of_isFinite {x : Number} (h : x.isFinite) : x.isInfinite = false := by
  simp only [isFinite, isInfinite, decide_eq_true_eq, beq_eq_false_iff_ne] at *
  omega

theorem add_eq_of_isFinite {a b : Number} (ha : a.isFinite) (hb : b.isFinite) :
    a + b = if a.units + b.units = 0 then signedZero (a.negative && b.negative)
      else ofRatio (a.units + b.units < 0) (a.units + b.units).natAbs 1 := by
  change add a b = _
  simp [add, isNaN_of_isFinite ha, isNaN_of_isFinite hb, isInfinite_of_isFinite ha, isInfinite_of_isFinite hb]

theorem add_magnitude {a b : Number} (ha : a.isFinite) (hb : b.isFinite) :
    (a + b).magnitude = roundMagnitude (a.units + b.units).natAbs 1 := by
  rw [add_eq_of_isFinite ha hb]
  split
  · rename_i hz
    rw [hz]
    rfl
  · rfl

theorem add_negative {a b : Number} (ha : a.isFinite) (hb : b.isFinite) (h : a.units + b.units ≠ 0) :
    (a + b).negative = decide (a.units + b.units < 0) := by
  rw [add_eq_of_isFinite ha hb, if_neg h]
  rfl

theorem add_isWhole_iff {a b : Number} (ha : a.isFinite) (hb : b.isFinite) (n : Nat) :
    (a + b).IsWhole n ↔ 0 ≤ a.units + b.units ∧ RoundsToWhole (a.units + b.units).natAbs n := by
  have hm := add_magnitude ha hb
  rw [isWhole_iff_of_magnitude hm, and_comm]
  apply and_congr_left
  intro hw
  by_cases hz : a.units + b.units = 0
  · rw [hz] at hm ⊢
    exact iff_of_true (.inr hm) (Int.le_refl 0)
  · have hne : (a + b).magnitude ≠ 0 := by
      -- Only zero units round to zero.
      intro he
      have hzero : RoundsToWhole (a.units + b.units).natAbs 0 := ⟨hw.finite, by rw [← hm, he, Nat.zero_mul]; rfl⟩
      exact hz (Int.natAbs_eq_zero.mp hzero.eq_zero)
    rw [or_iff_left hne, add_negative ha hb hz, decide_eq_false_iff_not, Int.not_lt]

theorem add_isWhole_shift {n k i : Nat} {x : Number} (hn : n + k ≤ 2 ^ 52) (hi : i + k ≤ 2 ^ 52)
    (h : (ofNat n + x).IsWhole i) : (ofNat (n + k) + x).IsWhole ((i + k : Nat) : Int) := by
  obtain ⟨hfinite, hunits⟩ := ofNat_isWhole (Nat.le_of_add_right_le hn)
  obtain ⟨hfinite', hunits'⟩ := ofNat_isWhole hn
  have hx := (isFinite_of_add h.1).2
  obtain ⟨hsum, hw⟩ := (add_isWhole_iff hfinite hx i).mp h
  have hshift : (ofNat (n + k)).units + x.units = (ofNat n).units + x.units + (k * unitsPerOne : Nat) := by
    rw [hunits, hunits']
    push_cast
    ring
  have hk := Int.natCast_nonneg (k * unitsPerOne)
  refine (add_isWhole_iff hfinite' hx (i + k)).mpr ?_
  rw [hshift, Int.natAbs_add_of_nonneg hsum hk, Int.natAbs_natCast]
  exact ⟨Int.add_nonneg hsum hk, hw.add hi⟩

end Number

end StackMachine
