import Mathlib.Data.List.TakeWhile
import StackMachine.Decimal.Literal
import StackMachine.Decimal.Style
import StackMachine.Proofs.Values

namespace StackMachine

namespace Decimal

theorem onGrid?_eq_some {tie : Tie} {m : Nat} {e : Int} {d : Decimal} (h : onGrid? tie m e = some d) :
    d.magnitude = m ∧ d.exponent = e := by
  simp only [onGrid?] at h
  split at h
  · cases h
  · rename_i hb _
    cases h
    exact ⟨eq_of_beq hb, rfl⟩
  · rename_i _ ha
    cases h
    exact ⟨eq_of_beq ha, rfl⟩
  · rename_i hb ha
    cases h
    split
    · exact ⟨eq_of_beq ha, rfl⟩
    · exact ⟨eq_of_beq hb, rfl⟩

theorem two_mul_le_log2 {units : Nat} (h : units ≠ 0) (k : Nat) : 2 * k ≤ (units * Nat.pow 5 k).log2 := by
  have hpow : 2 ^ (2 * k) ≤ units * Nat.pow 5 k := by
    calc 2 ^ (2 * k) = 4 ^ k := pow_mul 2 2 k
      _ ≤ 5 ^ k := Nat.pow_le_pow_left (by decide) k
      _ ≤ units * Nat.pow 5 k := Nat.le_mul_of_pos_left _ (Nat.pos_of_ne_zero h)
  exact (Nat.le_log2 (Nat.ne_of_gt (Nat.lt_of_lt_of_le (Nat.two_pow_pos _) hpow))).mpr hpow

-- The number of places is a variable here, for the powers must not be evaluated.
theorem magnitude_exact {m k : Nat} {d : Decimal} (hd : d.digits = Number.magnitudeUnits m * Nat.pow 5 k)
    (he : d.exponent = -(k : Int)) (hk : Number.unitsPerOne = 1 <<< k) (hle : k ≤ 1100) (h0 : m ≠ 0)
    (hm : m ≤ Number.infinityMagnitude) : d.magnitude = m := by
  have hlog := two_mul_le_log2 (mt (Number.magnitudeUnits_eq_zero_iff m).mp h0) k
  have hv : d.vanishes = false := by
    apply decide_eq_false
    rw [hd]
    omega
  have hpos : d.exponent.toNat = 0 := by omega
  have hneg : (-d.exponent).toNat = k := by omega
  have hnum : Number.magnitudeUnits m * Nat.pow 5 k * Nat.pow 10 0 * (1 <<< k) =
      Number.magnitudeUnits m * Nat.pow 10 k := by
    have hten : Nat.pow 10 k = Nat.pow 5 k * Nat.pow 2 k := Nat.mul_pow 5 2 k
    rw [hten, Nat.shiftLeft_eq]
    simp only [Nat.pow_eq]
    ring
  rw [magnitude, hv, if_neg Bool.false_ne_true, hd, hpos, hneg, Nat.zero_min, hk, hnum]
  exact Number.roundMagnitude_magnitudeUnits hm (Nat.pow_pos (by decide))

theorem exact_magnitude {m : Nat} (h0 : m ≠ 0) (hm : m ≤ Number.infinityMagnitude) : (exact m).magnitude = m :=
  magnitude_exact rfl rfl rfl (by decide) h0 hm

theorem topExponent_le {m : Nat} (hm : m < Number.infinityMagnitude) : topExponent m ≤ 310 := by
  obtain ⟨s, f, he, hu, hf, _⟩ := Number.exists_significand m
  have hs : s < 2046 := by
    simp only [Number.binade, Number.infinityMagnitude] at *
    omega
  have hlt : Number.magnitudeUnits m < 2 ^ (53 + s) := by
    calc Number.magnitudeUnits m = f * 2 ^ s := hu
      _ < 2 ^ 53 * 2 ^ s := Nat.mul_lt_mul_of_pos_right hf (Nat.two_pow_pos s)
      _ = 2 ^ (53 + s) := (pow_add 2 53 s).symm
  have hlog : (Number.magnitudeUnits m).log2 < 53 + s := by
    by_cases h0 : Number.magnitudeUnits m = 0
    · rw [h0, Nat.log2_zero]
      omega
    · exact (Nat.log2_lt h0).mpr hlt
  have htop : ∀ l : Nat, l < 2099 → ((l - 1073 : Int) * 30103 / 100000 + 1) ≤ 310 := by
    intro l hl
    omega
  exact htop _ (by omega)

theorem shortest_of_ne_zero (tie : Tie) {m : Nat} (h0 : m ≠ 0) : shortest tie m = exact m ∨
    ∃ i : Nat, onGrid? tie m (topExponent m - i) = some (shortest tie m) := by
  simp only [shortest, if_neg h0]
  cases hf : (List.range 20).findSome? fun i : Nat => onGrid? tie m (topExponent m - i) with
  | none => exact .inl Option.getD_none
  | some d =>
    obtain ⟨i, _, hi⟩ := List.exists_of_findSome?_eq_some hf
    exact .inr ⟨i, hi⟩

theorem shortest_spec (tie : Tie) {m : Nat} (hm : m < Number.infinityMagnitude) :
    (shortest tie m).magnitude = m ∧ (shortest tie m).exponent ≤ 400 := by
  by_cases h0 : m = 0
  · have hz : shortest tie 0 = ⟨0, 0⟩ := rfl
    rw [h0, hz]
    exact ⟨by decide +kernel, by decide⟩
  · rcases shortest_of_ne_zero tie h0 with he | ⟨i, hi⟩
    · have hexp : (exact m).exponent ≤ 400 := show (-1074 : Int) ≤ 400 by decide
      rw [he]
      exact ⟨exact_magnitude h0 (Nat.le_of_lt hm), hexp⟩
    · obtain ⟨hd, he⟩ := onGrid?_eq_some hi
      have htop := topExponent_le hm
      exact ⟨hd, by omega⟩

theorem magnitude_mul_pow {n : Nat} {e : Int} (h0 : 0 ≤ e) (he : e ≤ 400) :
    magnitude ⟨n * 10 ^ e.toNat, 0⟩ = magnitude ⟨n, e⟩ := by
  have hv : ∀ (k : Nat) (i : Int), 0 ≤ i → vanishes ⟨k, i⟩ = false := by
    intro k i hi
    apply decide_eq_false
    dsimp only
    omega
  have hmin : min e.toNat 400 = e.toNat := by omega
  have hneg : (-e).toNat = 0 := by omega
  simp [magnitude, hv _ e h0, hv _ 0 (Int.le_refl 0), hmin, hneg]

end Decimal

structure Numeral (text : List Char) : Prop where
  head : ∃ c rest, text = c :: rest ∧ c.isDigit = true
  all : ∀ c ∈ text, c.isDigit = true ∨ c ∈ ['.', 'e', '+', '-']

structure Unsigned (text : List Char) : Prop where
  head : ∃ c rest, text = c :: rest ∧ c.isDigit = true
  all : ∀ c ∈ text, c.isDigit = true ∨ c = '.'

theorem Unsigned.numeral {text : List Char} (h : Unsigned text) : Numeral text where
  head := h.head
  all := by
    intro c hc
    apply (h.all c hc).imp_right
    rintro rfl
    simp

namespace Literal

theorem decimalValue_eq (digits : List Char) : decimalValue digits = Nat.ofDigitChars 10 digits 0 :=
  Nat.ofDigitChars_eq_foldl.symm

theorem decimalValue_toDigits (n : Nat) : decimalValue (Nat.toDigits 10 n) = n := by
  rw [decimalValue_eq, Nat.ofDigitChars_ten_toDigits]

theorem decimalValue_zeros_append (k : Nat) (digits : List Char) :
    decimalValue (List.replicate k '0' ++ digits) = decimalValue digits := by
  rw [decimalValue_eq, Nat.ofDigitChars_append, Nat.ofDigitChars_replicate_zero, Nat.mul_zero, decimalValue_eq]

theorem decimalValue_append_zeros (digits : List Char) (k : Nat) :
    decimalValue (digits ++ List.replicate k '0') = decimalValue digits * 10 ^ k := by
  rw [decimalValue_eq, Nat.ofDigitChars_append, Nat.ofDigitChars_replicate_zero, decimalValue_eq, Nat.mul_comm]

/-- The text cannot go on with a digit or a point. -/
def Breaks (rest : List Char) : Prop := ∀ c ∈ rest.head?, c.isDigit = false ∧ c ≠ '.'

theorem breaks_nil : Breaks [] := nofun

theorem span_digits {digits rest : List Char} (hd : ∀ c ∈ digits, c.isDigit = true)
    (hr : ∀ c ∈ rest.head?, c.isDigit = false) :
    (digits ++ rest).takeWhile Char.isDigit = digits ∧ (digits ++ rest).dropWhile Char.isDigit = rest := by
  rw [List.takeWhile_append_of_pos hd, List.dropWhile_append_of_pos hd]
  cases rest with
  | nil => simp
  | cons c rest => simp [hr c rfl]

theorem readDecimal?_whole {whole rest : List Char} {e : Int} (hne : whole ≠ [])
    (hw : ∀ c ∈ whole, c.isDigit = true) (hr : Breaks rest) (he : readExponent? rest = some e) :
    readDecimal? (whole ++ rest) = some ⟨decimalValue whole, e⟩ := by
  obtain ⟨htake, hdrop⟩ := span_digits hw fun c hc => (hr c hc).1
  simp only [readDecimal?, htake, hdrop]
  split
  · exact absurd rfl (hr '.' rfl).2
  · simp [hne, he]

theorem readDecimal?_point {whole fraction rest : List Char} {e : Int} (hne : whole ≠ [] ∨ fraction ≠ [])
    (hw : ∀ c ∈ whole, c.isDigit = true) (hf : ∀ c ∈ fraction, c.isDigit = true) (hr : Breaks rest)
    (he : readExponent? rest = some e) :
    readDecimal? (whole ++ '.' :: (fraction ++ rest)) =
      some ⟨decimalValue (whole ++ fraction), e - fraction.length⟩ := by
  have hpoint : ∀ c ∈ ('.' :: (fraction ++ rest)).head?, c.isDigit = false := by simp
  obtain ⟨htake, hdrop⟩ := span_digits hw hpoint
  obtain ⟨htake', hdrop'⟩ := span_digits hf fun c hc => (hr c hc).1
  have hempty : (whole.isEmpty && fraction.isEmpty) = false := by
    rcases hne with h | h <;> simp [h]
  simp [readDecimal?, htake, hdrop, htake', hdrop', hempty, he]

theorem readDecimal?_positional {whole fraction : List Char} (hne : whole ≠ []) (hw : ∀ c ∈ whole, c.isDigit = true)
    (hf : ∀ c ∈ fraction, c.isDigit = true) :
    readDecimal? (whole ++ '.' :: fraction) = some ⟨decimalValue (whole ++ fraction), -fraction.length⟩ := by
  simpa [readExponent?] using readDecimal?_point (.inl hne) hw hf breaks_nil rfl

theorem splitSign_of_numeral {text : List Char} (h : Numeral text) : splitSign text = (false, text) := by
  obtain ⟨c, rest, rfl, hc⟩ := h.head
  unfold splitSign
  split
  · rename_i heq
    cases heq
    cases hc
  · rename_i heq
    cases heq
    cases hc
  · rfl

theorem readDecimal?_of_startsDecimal_eq_false {body : List Char} (h : startsDecimal body = false) :
    readDecimal? body = none := by
  cases body with
  | nil => rfl
  | cons c rest =>
    obtain ⟨hd, hp⟩ := Bool.or_eq_false_iff.mp h
    have hpoint : c ≠ '.' := by simpa using hp
    simp only [readDecimal?, List.takeWhile_cons, List.dropWhile_cons, hd, Bool.false_eq_true, ↓reduceIte]
    split
    · rename_i heq
      cases heq
      exact absurd rfl hpoint
    · rfl

theorem splitSign_of_startsDecimal {body : List Char} (h : startsDecimal body = true) :
    splitSign body = (false, body) := by
  unfold splitSign
  split
  · cases h
  · cases h
  · rfl

theorem readName?_filter (negative : Bool) (body : List Char) :
    (readName? negative body).filter Number.isFinite = none := by
  unfold readName?
  cases negative <;> simp only <;> split <;> (try split) <;> rfl

theorem readFloat?_filter {body : List Char} (h : startsDecimal body = true) :
    (readFloat? body).filter Number.isFinite =
      ((readDecimal? body).map (Decimal.toNumber false)).filter Number.isFinite := by
  rw [readFloat?, splitSign_of_startsDecimal h]
  simp only
  cases readDecimal? body with
  | none => exact readName?_filter false body
  | some d => rfl

theorem readBody?_mark {mark : Char} (hm : mark = 'x' ∨ mark = 'X') (negative : Bool) (rest : List Char) :
    readBody? negative ('0' :: mark :: rest) =
      (readHex? rest).map fun n => Number.ofRatio negative (n * Number.unitsPerOne) 1 := by
  have hmark : readMagnitude? ('0' :: mark :: rest) = (readHex? rest).map Number.ofNat := by
    rcases hm with rfl | rfl <;> rfl
  rw [readBody?, hmark, Option.map_map]
  cases negative <;> rfl

theorem readMagnitude?_cases (body : List Char) :
    (∃ mark rest, (mark = 'x' ∨ mark = 'X') ∧ body = '0' :: mark :: rest) ∨
      readMagnitude? body = ((readDecimal? body).map (Decimal.toNumber false)).filter Number.isFinite := by
  unfold readMagnitude?
  split
  · exact .inl ⟨'x', _, .inl rfl, rfl⟩
  · exact .inl ⟨'X', _, .inr rfl, rfl⟩
  · right
    split
    · rename_i h
      exact readFloat?_filter h
    · rename_i h
      rw [readDecimal?_of_startsDecimal_eq_false (Bool.eq_false_of_not_eq_true h)]
      rfl

theorem readBody?_cases (negative : Bool) (body : List Char) :
    (∃ mark rest, (mark = 'x' ∨ mark = 'X') ∧ body = '0' :: mark :: rest) ∨
      readBody? negative body = ((readDecimal? body).map (Decimal.toNumber negative)).filter Number.isFinite := by
  apply (readMagnitude?_cases body).imp_right
  intro hbody
  rw [readBody?, hbody]
  cases readDecimal? body with
  | none => rfl
  | some d =>
    have hfinite : (d.toNumber negative).isFinite = (d.toNumber false).isFinite := rfl
    have hsign : (if negative then -(d.toNumber false) else d.toNumber false) = d.toNumber negative := by
      cases negative <;> rfl
    rw [Option.map_some, Option.map_some, Option.filter_some, Option.filter_some, hfinite, ← hsign]
    cases (d.toNumber false).isFinite <;> rfl

theorem readBody?_of_numeral {text : List Char} (h : Numeral text) (negative : Bool) :
    readBody? negative text =
      ((readDecimal? text).map (Decimal.toNumber negative)).filter Number.isFinite := by
  rcases readBody?_cases negative text with ⟨mark, rest, hm, rfl⟩ | hbody
  · have hx := h.all mark (by simp)
    rcases hm with rfl | rfl <;> rcases hx with hx | hx <;> simp at hx
  · exact hbody

theorem read?_signed {text : List Char} (h : Numeral text) (negative : Bool) :
    read? (if negative then '-' :: text else text) = readBody? negative text := by
  cases negative with
  | true => rfl
  | false => simp [read?, splitSign_of_numeral h]

end Literal

namespace Style

theorem isDigit_of_mem_toDigits {n : Nat} {c : Char} (h : c ∈ Nat.toDigits 10 n) : c.isDigit = true :=
  Nat.isDigit_of_mem_toDigits (by decide) (by decide) h

theorem isDigit_of_mem_zeros {k : Nat} {c : Char} (h : c ∈ List.replicate k '0') : c.isDigit = true := by
  rw [List.eq_of_mem_replicate h]
  rfl

/-- The parts of a text `whole` or `whole.fraction`, and the decimal `n * 10 ^ e` that they stand for. -/
inductive Positional (n : Nat) (e : Int) : List Char → Prop
  | whole {whole : List Char} (hne : whole ≠ []) (hw : ∀ c ∈ whole, c.isDigit = true) (h0 : 0 ≤ e)
      (hv : Literal.decimalValue whole = n * 10 ^ e.toNat) : Positional n e whole
  | point {whole fraction : List Char} (hne : whole ≠ []) (hw : ∀ c ∈ whole, c.isDigit = true)
      (hf : ∀ c ∈ fraction, c.isDigit = true) (hv : Literal.decimalValue (whole ++ fraction) = n)
      (he : e = -(fraction.length : Int)) : Positional n e (whole ++ '.' :: fraction)

theorem positional_plain (n : Nat) (e : Int) : Positional n e (plain.positionalText (Nat.toDigits 10 n) e) := by
  have hd : ∀ c ∈ Nat.toDigits 10 n, c.isDigit = true := fun c => isDigit_of_mem_toDigits
  simp only [positionalText]
  split
  · rename_i h0
    rw [show plain.wholeMark = [] from rfl, List.append_nil]
    refine .whole (by simp) ?_ h0 (by rw [Literal.decimalValue_append_zeros, Literal.decimalValue_toDigits])
    intro c hc
    rcases List.mem_append.mp hc with hc | hc
    · exact hd c hc
    · exact isDigit_of_mem_zeros hc
  · split
    · rename_i h0 hp
      refine .point ?_ (fun c hc => hd c (List.mem_of_mem_take hc)) (fun c hc => hd c (List.mem_of_mem_drop hc)) ?_ ?_
      · simp
        omega
      · rw [List.take_append_drop, Literal.decimalValue_toDigits]
      · rw [List.length_drop]
        omega
    · rename_i h0 hp
      change Positional n e (['0'] ++ '.' :: _)
      refine .point (by simp) (by simp) ?_ ?_ ?_
      · intro c hc
        rcases List.mem_append.mp hc with hc | hc
        · exact isDigit_of_mem_zeros hc
        · exact hd c hc
      · rw [← List.append_assoc, List.singleton_append, ← List.replicate_succ, Literal.decimalValue_zeros_append,
          Literal.decimalValue_toDigits]
      · rw [List.length_append, List.length_replicate]
        omega

theorem Positional.readDecimal? {n : Nat} {e : Int} {text : List Char} (h : Positional n e text) (he : e ≤ 400) :
    ∃ d, Literal.readDecimal? text = some d ∧ d.magnitude = Decimal.magnitude ⟨n, e⟩ := by
  cases h with
  | whole hne hw h0 hv =>
    have hr := Literal.readDecimal?_whole hne hw Literal.breaks_nil rfl
    rw [List.append_nil] at hr
    exact ⟨_, hr, by rw [hv, Decimal.magnitude_mul_pow h0 he]⟩
  | point hne hw hf hv he => exact ⟨_, Literal.readDecimal?_positional hne hw hf, by rw [hv, he]⟩

theorem Positional.unsigned {n : Nat} {e : Int} {text : List Char} (h : Positional n e text) : Unsigned text := by
  cases h with
  | whole hne hw =>
    obtain ⟨c, rest, rfl⟩ := List.exists_cons_of_ne_nil hne
    exact ⟨⟨c, rest, rfl, hw c List.mem_cons_self⟩, fun c hc => .inl (hw c hc)⟩
  | @point whole fraction hne hw hf =>
    obtain ⟨c, rest, rfl⟩ := List.exists_cons_of_ne_nil hne
    refine ⟨⟨c, rest ++ '.' :: fraction, rfl, hw c List.mem_cons_self⟩, ?_⟩
    intro a ha
    rcases List.mem_append.mp ha with ha | ha
    · exact .inl (hw a ha)
    · rcases List.mem_cons.mp ha with ha | ha
      · exact .inr ha
      · exact .inl (hf a ha)

theorem positional_magnitudeText (m : Nat) :
    Positional (Decimal.shortest plain.tie m).digits (Decimal.shortest plain.tie m).exponent (plain.magnitudeText m) :=
  positional_plain _ _

theorem write_toList {x : Number} (h : x.isFinite) (style : Style) : (style.write x).toList =
    if x.negative then '-' :: style.magnitudeText x.magnitude else style.magnitudeText x.magnitude := by
  have hi : x.isInfinite = false := by
    simp only [Number.isFinite, Number.isInfinite, decide_eq_true_eq, beq_eq_false_iff_ne] at *
    omega
  simp [write, Number.isNaN_of_isFinite h, hi]

theorem read?_write {style : Style} {x : Number} (h : x.isFinite) {d : Decimal}
    (hn : Numeral (style.magnitudeText x.magnitude))
    (hd : Literal.readDecimal? (style.magnitudeText x.magnitude) = some d) (hm : d.magnitude = x.magnitude) :
    Literal.read? (style.write x).toList = some x := by
  have hx : d.toNumber x.negative = x := by
    obtain ⟨negative, magnitude, hlt⟩ := x
    simp only [Decimal.toNumber, Number.mk.injEq, true_and]
    exact hm
  rw [write_toList h, Literal.read?_signed hn, Literal.readBody?_of_numeral hn, hd, Option.map_some, hx]
  simp [h]

end Style

namespace Number

theorem text_toList {x : Number} (h : x.isFinite) : x.text.toList =
    if x.negative then '-' :: Style.plain.magnitudeText x.magnitude else Style.plain.magnitudeText x.magnitude :=
  Style.write_toList h Style.plain

theorem read?_text {x : Number} (h : x.isFinite) : Literal.read? x.text.toList = some x := by
  have hp := Style.positional_magnitudeText x.magnitude
  obtain ⟨hm, he⟩ := Decimal.shortest_spec Style.plain.tie (of_decide_eq_true h)
  obtain ⟨d, hd, hdm⟩ := hp.readDecimal? he
  exact Style.read?_write h hp.unsigned.numeral hd (hdm.trans hm)

end Number

end StackMachine
