import StackMachine.Proofs.Numerals
import StackMachine.Proofs.Rounding

namespace StackMachine

namespace Decimal

theorem magnitude_tenth {n : Nat} {e : Int} (h0 : 0 ≤ e) (he : e ≤ 400) :
    magnitude ⟨n * 10 ^ e.toNat * 10, -1⟩ = magnitude ⟨n, e⟩ := by
  have hv : vanishes ⟨n * 10 ^ e.toNat * 10, -1⟩ = false := by
    apply decide_eq_false
    dsimp only
    omega
  have hv' : vanishes ⟨n * 10 ^ e.toNat, 0⟩ = false := by
    apply decide_eq_false
    dsimp only
    omega
  rw [← magnitude_mul_pow h0 he, magnitude, magnitude, hv, hv', if_neg Bool.false_ne_true, if_neg Bool.false_ne_true]
  have hten := Number.roundMagnitude_mul_mul (n * 10 ^ e.toNat * Number.unitsPerOne) 1 (k := 10) (by decide)
  simpa [Nat.mul_right_comm] using hten

end Decimal

namespace Literal

theorem readExponent?_json (e : Int) : readExponent? (Style.json.exponentText e) = some e := by
  have hdigits : (Nat.toDigits 10 e.natAbs).all Char.isDigit = true :=
    List.all_eq_true.mpr fun c => Style.isDigit_of_mem_toDigits
  have hempty : (Nat.toDigits 10 e.natAbs).isEmpty = false := by simp
  by_cases h : e < 0
  · have habs : -(e.natAbs : Int) = e := by omega
    have htext : Style.json.exponentText e = 'e' :: '-' :: Nat.toDigits 10 e.natAbs := by simp [Style.exponentText, h]
    simp only [htext, readExponent?, splitSign, hdigits, hempty, decimalValue_toDigits, habs]
    rfl
  · have habs : (e.natAbs : Int) = e := by omega
    have htext : Style.json.exponentText e = 'e' :: '+' :: Nat.toDigits 10 e.natAbs := by
      simp [Style.exponentText, Style.json, h]
    simp only [htext, readExponent?, splitSign, hdigits, hempty, decimalValue_toDigits, habs]
    rfl

theorem breaks_exponentText (style : Style) (e : Int) : Breaks (style.exponentText e) := by
  intro c hc
  cases hc
  decide

end Literal

namespace Style

theorem json_positionalText_of_neg (digits : List Char) {e : Int} (h : e < 0) :
    json.positionalText digits e = plain.positionalText digits e := by
  simp [positionalText, Int.not_le.mpr h]

theorem json_positionalText_of_nonneg (digits : List Char) {e : Int} (h : 0 ≤ e) :
    json.positionalText digits e = digits ++ List.replicate e.toNat '0' ++ '.' :: ['0'] := by
  simp [positionalText, h, json]

theorem readDecimal?_json_positional (n : Nat) {e : Int} (he : e ≤ 400) :
    ∃ d, Literal.readDecimal? (json.positionalText (Nat.toDigits 10 n) e) = some d ∧
      d.magnitude = Decimal.magnitude ⟨n, e⟩ := by
  by_cases h : 0 ≤ e
  · have hw : ∀ c ∈ Nat.toDigits 10 n ++ List.replicate e.toNat '0', c.isDigit = true := by
      intro c hc
      rcases List.mem_append.mp hc with hc | hc
      · exact isDigit_of_mem_toDigits hc
      · exact isDigit_of_mem_zeros hc
    have hzero : ∀ c ∈ ['0'], c.isDigit = true := by simp
    have hr := Literal.readDecimal?_positional (by simp) hw hzero
    rw [json_positionalText_of_nonneg _ h]
    refine ⟨_, hr, ?_⟩
    rw [show ['0'] = List.replicate 1 '0' from rfl, Literal.decimalValue_append_zeros, Literal.decimalValue_append_zeros,
      Literal.decimalValue_toDigits]
    exact Decimal.magnitude_tenth h he
  · rw [json_positionalText_of_neg _ (Int.not_le.mp h)]
    exact (positional_plain n e).readDecimal? he

theorem readDecimal?_json_scientific (n : Nat) (e : Int) :
    Literal.readDecimal? (json.scientificText (Nat.toDigits 10 n) e) = some ⟨n, e⟩ := by
  have hd : ∀ c ∈ Nat.toDigits 10 n, c.isDigit = true := fun c => isDigit_of_mem_toDigits
  have hne : (Nat.toDigits 10 n).take 1 ≠ [] := by simp
  have hw : ∀ c ∈ (Nat.toDigits 10 n).take 1, c.isDigit = true := fun c hc => hd c (List.mem_of_mem_take hc)
  have hf : ∀ c ∈ (Nat.toDigits 10 n).drop 1, c.isDigit = true := fun c hc => hd c (List.mem_of_mem_drop hc)
  have hvalue : Literal.decimalValue ((Nat.toDigits 10 n).take 1 ++ (Nat.toDigits 10 n).drop 1) = n := by
    rw [List.take_append_drop, Literal.decimalValue_toDigits]
  have hb := Literal.breaks_exponentText json
  simp only [scientificText]
  split
  · rename_i hempty
    rw [List.isEmpty_iff.mp hempty, List.append_nil] at hvalue
    rw [List.append_nil, List.isEmpty_iff.mp hempty, Literal.readDecimal?_whole hne hw (hb _)
      (Literal.readExponent?_json _), hvalue]
    simp
  · rw [List.append_assoc, List.cons_append, Literal.readDecimal?_point (.inl hne) hw hf (hb _)
      (Literal.readExponent?_json _), hvalue]
    simp

theorem numeral_json_positional (n : Nat) (e : Int) : Numeral (json.positionalText (Nat.toDigits 10 n) e) := by
  by_cases h : 0 ≤ e
  · rw [json_positionalText_of_nonneg _ h]
    obtain ⟨c, rest, hc⟩ := List.exists_cons_of_ne_nil (Nat.toDigits_ne_nil (n := n) (b := 10))
    constructor
    · exact ⟨c, _, by rw [hc]; rfl, isDigit_of_mem_toDigits (hc ▸ List.mem_cons_self)⟩
    · intro a ha
      simp only [List.mem_append, List.mem_cons, List.not_mem_nil, or_false] at ha
      rcases ha with (ha | ha) | rfl | rfl
      · exact .inl (isDigit_of_mem_toDigits ha)
      · exact .inl (isDigit_of_mem_zeros ha)
      · exact .inr (by simp)
      · exact .inl rfl
  · rw [json_positionalText_of_neg _ (Int.not_le.mp h)]
    exact (positional_plain n e).unsigned.numeral

theorem exponentText_all (e : Int) :
    ∀ c ∈ json.exponentText e, c.isDigit = true ∨ c ∈ ['.', 'e', '+', '-'] := by
  intro c hc
  rw [exponentText, List.mem_cons, List.mem_append] at hc
  rcases hc with rfl | hc | hc
  · simp
  · split at hc <;> simp_all [json]
  · exact .inl (isDigit_of_mem_toDigits hc)

theorem numeral_json_scientific (n : Nat) (e : Int) : Numeral (json.scientificText (Nat.toDigits 10 n) e) := by
  obtain ⟨c, rest, hc⟩ := List.exists_cons_of_ne_nil (Nat.toDigits_ne_nil (n := n) (b := 10))
  have hd : ∀ a ∈ c :: rest, a.isDigit = true := fun a ha => isDigit_of_mem_toDigits (hc ▸ ha)
  have hhead := hd c List.mem_cons_self
  simp only [scientificText, hc, List.take_succ_cons, List.take_zero, List.drop_succ_cons, List.drop_zero]
  constructor
  · exact ⟨c, _, rfl, hhead⟩
  · intro a ha
    simp only [List.mem_append, List.mem_singleton] at ha
    rcases ha with (rfl | ha) | ha
    · exact .inl hhead
    · split at ha
      · cases ha
      · rcases List.mem_cons.mp ha with rfl | ha
        · simp
        · exact .inl (hd a (List.mem_cons_of_mem c ha))
    · exact exponentText_all _ a ha

theorem numeral_json (m : Nat) : Numeral (json.magnitudeText m) := by
  simp only [magnitudeText]
  split
  · exact numeral_json_positional _ _
  · exact numeral_json_scientific _ _

theorem readDecimal?_json {m : Nat} (h : m < Number.infinityMagnitude) :
    ∃ d, Literal.readDecimal? (json.magnitudeText m) = some d ∧ d.magnitude = m := by
  obtain ⟨hm, he⟩ := Decimal.shortest_spec json.tie h
  simp only [magnitudeText]
  split
  · obtain ⟨d, hd, hdm⟩ := readDecimal?_json_positional (Decimal.shortest json.tie m).digits he
    exact ⟨d, hd, hdm.trans hm⟩
  · exact ⟨_, readDecimal?_json_scientific _ _, hm⟩

end Style

namespace Number

theorem read?_json {x : Number} (h : x.isFinite) : Literal.read? x.json.toList = some x := by
  obtain ⟨d, hd, hm⟩ := Style.readDecimal?_json (of_decide_eq_true h)
  exact Style.read?_write h (Style.numeral_json _) hd hm

theorem write_of_not_isFinite {x : Number} (h : x.isFinite = false) (style : Style) :
    style.write x ∈ [style.nan, style.infinity, style.negativeInfinity] := by
  rcases isNaN_or_isInfinite h with hn | hi
  · simp [Style.write, hn]
  · cases hn : x.isNaN <;> cases hs : x.negative <;> simp [Style.write, hn, hi, hs]

theorem ofLiteral?_text (x : Number) : ofLiteral? x.text = if x.isFinite then some x else none := by
  cases h : x.isFinite with
  | true => exact read?_text h
  | false =>
    have hnone : ∀ text ∈ ["NaN", "Infinity", "-Infinity"], ofLiteral? text = none := by decide
    exact hnone x.text (write_of_not_isFinite h Style.plain)

theorem text_survives_reading : (∀ x : Number, ofLiteral? x.text = if x.isFinite then some x else none) ∧
    ∀ x y : Number, x.isFinite → y.isFinite → x.toBits ≠ y.toBits → x.text ≠ y.text := by
  refine ⟨ofLiteral?_text, ?_⟩
  intro x y hx hy hne heq
  have hread := ofLiteral?_text x
  rw [heq, ofLiteral?_text y, if_pos hx, if_pos hy, Option.some.injEq] at hread
  exact hne (congrArg toBits hread.symm)

theorem text_survives_reading_zeros : (signedZero true).isFinite ∧ zero.isFinite ∧
    (signedZero true).toBits ≠ zero.toBits ∧ (signedZero true).text ≠ zero.text := by
  obtain ⟨_, hne⟩ := text_survives_reading
  have hbits : (signedZero true).toBits ≠ zero.toBits := by decide
  exact ⟨rfl, rfl, hbits, hne _ _ rfl rfl hbits⟩

end Number

end StackMachine
