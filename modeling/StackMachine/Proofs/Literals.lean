import Mathlib.Data.List.Chain
import Mathlib.Data.Nat.Digits.Defs
import Mathlib.Tactic.IntervalCases
import StackMachine.Proofs.Nearest
import StackMachine.Proofs.Sweep
import StackMachine.Proofs.Tokens

/-!
Number literals as a grammar with exact values. What the grammar spells is read as the nearest number, and nothing
else is read but hexadecimals with a plus sign after their mark, which the grammar does not have. A whole number is
read as the same number in both bases.
-/

namespace StackMachine

namespace Literal

structure IsDigit (base : Nat) (c : Char) (d : Nat) : Prop where
  lt : d < base
  char : c = d.digitChar ∨ c = d.digitChar.toUpper

def Denotes (base : Nat) (text : List Char) (n : Nat) : Prop :=
  ∃ digits, List.Forall₂ (IsDigit base) text.reverse digits ∧ n = Nat.ofDigits base digits

theorem denotes_nil_iff (base n : Nat) : Denotes base [] n ↔ n = 0 := by
  simp [Denotes]

theorem denotes_concat_iff (base : Nat) (text : List Char) (c : Char) (n : Nat) :
    Denotes base (text ++ [c]) n ↔ ∃ m d, Denotes base text m ∧ IsDigit base c d ∧ n = base * m + d := by
  simp only [Denotes, List.reverse_concat, List.forall₂_cons_left_iff]
  constructor
  · rintro ⟨_, ⟨d, digits, hd, hdigits, rfl⟩, rfl⟩
    exact ⟨_, d, ⟨digits, hdigits, rfl⟩, hd, by rw [Nat.ofDigits_cons, Nat.add_comm]⟩
  · rintro ⟨_, d, ⟨digits, hdigits, rfl⟩, hd, rfl⟩
    exact ⟨d :: digits, ⟨d, digits, hd, hdigits, rfl⟩, by rw [Nat.ofDigits_cons, Nat.add_comm]⟩

theorem toNat_of_hexDigit? {c : Char} {d : Nat} (h : hexDigit? c = some d) : c.toNat < 128 := by
  rw [hexDigit?] at h
  split at h
  · rename_i hc
    have hle : c.toNat ≤ 57 := (Char.isDigit_iff_toNat.mp hc).2
    omega
  · split at h
    · rename_i hc
      have hle : c.toNat ≤ 102 := hc.2
      omega
    · split at h
      · rename_i hc
        have hle : c.toNat ≤ 70 := hc.2
        omega
      · cases h

theorem hexDigit?_eq_some_iff (c : Char) (d : Nat) : hexDigit? c = some d ↔ IsDigit 16 c d := by
  constructor
  · intro h
    have hall : ∀ n < 128, ∀ d ∈ hexDigit? (Char.ofNat n), d < 16 ∧
        (Char.ofNat n = d.digitChar ∨ Char.ofNat n = d.digitChar.toUpper) := by
      decide
    obtain ⟨hd, hc⟩ := hall c.toNat (toNat_of_hexDigit? h) d (by rwa [Char.ofNat_toNat])
    rw [Char.ofNat_toNat] at hc
    exact ⟨hd, hc⟩
  · rintro ⟨hlt, hc⟩
    interval_cases d <;> rcases hc with rfl | rfl <;> rfl

theorem isDigit_ten_iff (c : Char) (d : Nat) : IsDigit 10 c d ↔ c.isDigit = true ∧ digitValue c = d := by
  constructor
  · rintro ⟨hlt, hc⟩
    interval_cases d <;> rcases hc with rfl | rfl <;> exact ⟨rfl, rfl⟩
  · rintro ⟨hc, rfl⟩
    have hhex : IsDigit 16 c (digitValue c) := (hexDigit?_eq_some_iff c _).mp (by rw [hexDigit?, if_pos hc])
    have hle : c.toNat ≤ 57 := (Char.isDigit_iff_toNat.mp hc).2
    have hzero : '0'.toNat = 48 := rfl
    refine ⟨?_, hhex.char⟩
    rw [digitValue]
    omega

theorem hexValue?_eq_some_iff (text : List Char) (n : Nat) : hexValue? text = some n ↔ Denotes 16 text n := by
  induction text using List.reverseRecOn generalizing n with
  | nil =>
    rw [denotes_nil_iff]
    exact Option.some_inj.trans eq_comm
  | append_singleton text c ih =>
    rw [hexValue?_concat, denotes_concat_iff]
    simp only [Option.bind_eq_some_iff, Option.map_eq_some_iff, ih, hexDigit?_eq_some_iff]
    constructor
    · rintro ⟨m, hm, d, hd, rfl⟩
      exact ⟨m, d, hm, hd, rfl⟩
    · rintro ⟨m, d, hm, hd, rfl⟩
      exact ⟨m, hm, d, hd, rfl⟩

theorem denotes_ten_iff (text : List Char) (n : Nat) :
    Denotes 10 text n ↔ (∀ c ∈ text, c.isDigit = true) ∧ decimalValue text = n := by
  induction text using List.reverseRecOn generalizing n with
  | nil =>
    rw [denotes_nil_iff]
    constructor
    · rintro rfl
      exact ⟨nofun, rfl⟩
    · rintro ⟨_, rfl⟩
      rfl
  | append_singleton text c ih =>
    have hvalue : decimalValue (text ++ [c]) = 10 * decimalValue text + digitValue c := List.foldl_concat ..
    simp only [denotes_concat_iff, ih, isDigit_ten_iff, hvalue, List.forall_mem_append, List.forall_mem_singleton]
    constructor
    · rintro ⟨_, _, ⟨hall, rfl⟩, ⟨hc, rfl⟩, rfl⟩
      exact ⟨⟨hall, hc⟩, rfl⟩
    · rintro ⟨⟨hall, hc⟩, rfl⟩
      exact ⟨_, _, ⟨hall, rfl⟩, ⟨hc, rfl⟩, rfl⟩

inductive Sign where
  | none
  | plus
  | minus

namespace Sign

def text : Sign → List Char
  | none => []
  | plus => ['+']
  | minus => ['-']

def isMinus : Sign → Bool
  | minus => true
  | _ => false

end Sign

def IsSign (c : Char) : Prop := c = '+' ∨ c = '-'

def Signless (text : List Char) : Prop := ∀ c ∈ text.head?, ¬ IsSign c

theorem exists_sign (text : List Char) :
    ∃ sign : Sign, text = sign.text ++ (splitSign text).2 ∧ (splitSign text).1 = sign.isMinus := by
  unfold splitSign
  split
  · exact ⟨.minus, rfl, rfl⟩
  · exact ⟨.plus, rfl, rfl⟩
  · exact ⟨.none, rfl, rfl⟩

theorem splitSign_append (sign : Sign) {body : List Char} (h : Signless body) :
    splitSign (sign.text ++ body) = (sign.isMinus, body) := by
  cases sign with
  | plus => rfl
  | minus => rfl
  | none =>
    change splitSign body = (false, body)
    unfold splitSign
    split
    · exact absurd (.inr rfl) (h '-' rfl)
    · exact absurd (.inl rfl) (h '+' rfl)
    · rfl

theorem not_isSign_of_isDigit {c : Char} (h : c.isDigit = true) : ¬ IsSign c := by
  rintro (rfl | rfl) <;> cases h

theorem not_isSign_of_decimal {digits : List Char} {n : Nat} (h : Denotes 10 digits n) : ∀ c ∈ digits, ¬ IsSign c :=
  fun c hc => not_isSign_of_isDigit (((denotes_ten_iff _ _).mp h).1 c hc)

theorem not_isSign_of_hexadecimal {digits : List Char} {n : Nat} (h : Denotes 16 digits n) :
    ∀ c ∈ digits, ¬ IsSign c := by
  intro c hc
  obtain ⟨d, hd⟩ := hexDigit?_of_mem ((hexValue?_eq_some_iff _ _).mpr h) hc
  rintro (rfl | rfl) <;> cases hd

theorem signless_of_forall {text : List Char} (h : ∀ c ∈ text, ¬ IsSign c) : Signless text :=
  fun c hc => h c (List.mem_of_mem_head? hc)

inductive Exponent : List Char → Int → Prop
  | none : Exponent [] 0
  | marked {mark : Char} {digits : List Char} {n : Nat} (sign : Sign) (hm : mark = 'e' ∨ mark = 'E')
      (hne : digits ≠ []) (h : Denotes 10 digits n) :
      Exponent (mark :: (sign.text ++ digits)) (if sign.isMinus then -(n : Int) else n)

/-- Digits with an optional point, as the whole number without the point and the number of digits after it. -/
inductive Significand : List Char → Nat → Nat → Prop
  | whole {whole : List Char} {n : Nat} (hne : whole ≠ []) (h : Denotes 10 whole n) : Significand whole n 0
  | point {whole fraction : List Char} {n : Nat} (hne : whole ≠ []) (h : Denotes 10 (whole ++ fraction) n) :
      Significand (whole ++ '.' :: fraction) n fraction.length
  | fraction {fraction : List Char} {n : Nat} (hne : fraction ≠ []) (h : Denotes 10 fraction n) :
      Significand ('.' :: fraction) n fraction.length

inductive Spells : List Char → ℚ → Prop
  | hexadecimal {mark : Char} {digits : List Char} {n : Nat} (hm : mark = 'x' ∨ mark = 'X') (hne : digits ≠ [])
      (h : Denotes 16 digits n) (hn : n < 2 ^ 64) : Spells ('0' :: mark :: digits) n
  | decimal {significand exponent : List Char} {n places : Nat} {e : Int} (hs : Significand significand n places)
      (he : Exponent exponent e) : Spells (significand ++ exponent) (n * 10 ^ (e - places))

/-- What is read: the literals, and hexadecimals with a plus sign between mark and digits. -/
inductive Reads : List Char → ℚ → Prop
  | spelled {body : List Char} {q : ℚ} (h : Spells body q) : Reads body q
  | plus {mark : Char} {digits : List Char} {n : Nat} (hm : mark = 'x' ∨ mark = 'X') (hne : digits ≠ [])
      (h : Denotes 16 digits n) (hn : n < 2 ^ 64) : Reads ('0' :: mark :: '+' :: digits) n

theorem readExponent?_eq_some_iff (text : List Char) (e : Int) : readExponent? text = some e ↔ Exponent text e := by
  constructor
  · intro h
    cases text with
    | nil =>
      cases h
      exact .none
    | cons mark rest =>
      obtain ⟨sign, hrest, hminus⟩ := exists_sign rest
      simp only [readExponent?, Option.ite_none_right_eq_some, Bool.and_eq_true, Bool.or_eq_true, beq_iff_eq,
        Option.some.injEq] at h
      obtain ⟨⟨⟨hm, hne⟩, hdigits⟩, rfl⟩ := h
      generalize (splitSign rest).2 = digits at *
      rw [hminus, hrest]
      exact .marked sign hm (by simpa using hne) ((denotes_ten_iff _ _).mpr ⟨by simpa using hdigits, rfl⟩)
  · rintro (_ | ⟨sign, hm, hne, h⟩)
    · rfl
    · obtain ⟨hdigits, rfl⟩ := (denotes_ten_iff _ _).mp h
      simp only [readExponent?, splitSign_append sign (signless_of_forall (not_isSign_of_decimal h))]
      rw [if_pos]
      simpa [hm, hne] using hdigits

theorem Exponent.breaks {text : List Char} {e : Int} (h : Exponent text e) : Breaks text := by
  cases h with
  | none => exact breaks_nil
  | marked sign hm _ _ =>
    intro c hc
    cases hc
    rcases hm with rfl | rfl <;> decide

theorem exists_significand_of_point {whole fraction : List Char} (hw : ∀ c ∈ whole, c.isDigit = true)
    (hf : ∀ c ∈ fraction, c.isDigit = true) (hne : whole ≠ [] ∨ fraction ≠ []) :
    Significand (whole ++ '.' :: fraction) (decimalValue (whole ++ fraction)) fraction.length := by
  have hdenotes : Denotes 10 (whole ++ fraction) (decimalValue (whole ++ fraction)) :=
    (denotes_ten_iff _ _).mpr ⟨List.forall_mem_append.mpr ⟨hw, hf⟩, rfl⟩
  by_cases hempty : whole = []
  · subst hempty
    exact .fraction (hne.resolve_left fun h => h rfl) hdenotes
  · exact .point hempty hdenotes

theorem readDecimal?_of_significand {significand exponent : List Char} {n places : Nat} {e : Int}
    (hs : Significand significand n places) (he : Exponent exponent e) :
    readDecimal? (significand ++ exponent) = some ⟨n, e - places⟩ := by
  have hread := (readExponent?_eq_some_iff _ _).mpr he
  cases hs with
  | whole hne h =>
    obtain ⟨hw, rfl⟩ := (denotes_ten_iff _ _).mp h
    simpa using readDecimal?_whole hne hw he.breaks hread
  | @point whole fraction _ hne h =>
    obtain ⟨hall, rfl⟩ := (denotes_ten_iff _ _).mp h
    obtain ⟨hw, hf⟩ := List.forall_mem_append.mp hall
    simpa using readDecimal?_point (.inl hne) hw hf he.breaks hread
  | @fraction fraction _ hne h =>
    obtain ⟨hf, rfl⟩ := (denotes_ten_iff _ _).mp h
    exact readDecimal?_point (.inr hne) (List.forall_mem_nil _) hf he.breaks hread

theorem exists_significand_of_readDecimal? {body : List Char} {d : Decimal} (h : readDecimal? body = some d) :
    ∃ significand exponent n places e, body = significand ++ exponent ∧ Significand significand n places ∧
      Exponent exponent e ∧ d = ⟨n, e - (places : Nat)⟩ := by
  have hall (text : List Char) : ∀ c ∈ text.takeWhile Char.isDigit, c.isDigit = true :=
    fun c => List.mem_takeWhile_imp
  simp only [readDecimal?] at h
  split at h
  · rename_i after hpoint
    rw [Option.ite_none_left_eq_some] at h
    obtain ⟨hne, h⟩ := h
    obtain ⟨e, he, rfl⟩ := Option.map_eq_some_iff.mp h
    refine ⟨_, after.dropWhile Char.isDigit, _, _, e, ?_, exists_significand_of_point (hall body) (hall after) ?_,
      (readExponent?_eq_some_iff _ _).mp he, rfl⟩
    · rw [List.append_assoc, List.cons_append, List.takeWhile_append_dropWhile, ← hpoint,
        List.takeWhile_append_dropWhile]
    · simpa only [Bool.and_eq_true, List.isEmpty_iff, Decidable.not_and_iff_or_not] using hne
  · rw [Option.ite_none_left_eq_some] at h
    obtain ⟨hne, h⟩ := h
    obtain ⟨e, he, rfl⟩ := Option.map_eq_some_iff.mp h
    refine ⟨body.takeWhile Char.isDigit, body.dropWhile Char.isDigit, _, 0, e,
      List.takeWhile_append_dropWhile.symm, .whole ?_ ((denotes_ten_iff _ _).mpr ⟨hall body, rfl⟩),
      (readExponent?_eq_some_iff _ _).mp he, by simp⟩
    simpa using hne

theorem readDecimal?_mark {mark : Char} (hm : mark = 'x' ∨ mark = 'X') (rest : List Char) :
    readDecimal? ('0' :: mark :: rest) = none := by
  rcases hm with rfl | rfl <;> simp [readDecimal?, readExponent?]

theorem readBody?_decimal {body : List Char} {d : Decimal} (h : readDecimal? body = some d) (negative : Bool) :
    readBody? negative body = if (d.toNumber negative).isFinite then some (d.toNumber negative) else none := by
  rcases readBody?_cases negative body with ⟨mark, rest, hm, rfl⟩ | hbody
  · rw [readDecimal?_mark hm] at h
    cases h
  · rw [hbody, h, Option.map_some, Option.filter_some]

theorem readHex?_eq_some_iff (body : List Char) (n : Nat) : readHex? body = some n ↔
    ∃ digits, (body = digits ∨ body = '+' :: digits) ∧ digits ≠ [] ∧ Denotes 16 digits n ∧ n < 2 ^ 64 := by
  have hcount : wordCount = 2 ^ 64 := rfl
  have hdigits (digits : List Char) :
      (if digits.isEmpty then none else (hexValue? digits).filter (· < wordCount)) = some n ↔
        digits ≠ [] ∧ Denotes 16 digits n ∧ n < 2 ^ 64 := by
    simp only [hcount, Option.ite_none_left_eq_some, Option.filter_eq_some_iff, hexValue?_eq_some_iff,
      decide_eq_true_eq, List.isEmpty_iff, ne_eq]
  unfold readHex?
  split
  · rename_i rest
    rw [hdigits]
    constructor
    · exact fun h => ⟨rest, .inr rfl, h⟩
    · rintro ⟨digits, rfl | heq, hne, h, hn⟩
      · exact absurd (.inl rfl) (not_isSign_of_hexadecimal h '+' List.mem_cons_self)
      · cases heq
        exact ⟨hne, h, hn⟩
  · rename_i hplus
    rw [hdigits]
    constructor
    · exact fun h => ⟨body, .inl rfl, h⟩
    · rintro ⟨digits, rfl | rfl, h⟩
      · exact h
      · exact absurd rfl (hplus digits)

theorem isNearest_word (n : Nat) (negative : Bool) :
    Number.IsNearest n (Number.ofRatio negative (n * Number.unitsPerOne) 1).magnitude := by
  have hround := Number.isNearest_roundMagnitude (n * Number.unitsPerOne) Nat.one_pos
  have hvalue : ((n * Number.unitsPerOne : Nat) : ℚ) / ((1 : Nat) * Number.unitsPerOne) = n := by
    rw [Nat.cast_mul, Nat.cast_one, one_mul, mul_div_cancel_right₀ _ Number.unitsPerOne_cast_pos.ne']
  rwa [hvalue] at hround

theorem exists_reads_of_readBody? {negative : Bool} {body : List Char} {x : Number}
    (h : readBody? negative body = some x) : ∃ q, Reads body q := by
  rcases readBody?_cases negative body with ⟨mark, rest, hm, rfl⟩ | hbody
  · rw [readBody?_mark hm] at h
    obtain ⟨n, hn, _⟩ := Option.map_eq_some_iff.mp h
    obtain ⟨digits, rfl | rfl, hne, hd, hlt⟩ := (readHex?_eq_some_iff _ _).mp hn
    · exact ⟨n, .spelled (.hexadecimal hm hne hd hlt)⟩
    · exact ⟨n, .plus hm hne hd hlt⟩
  · rw [hbody] at h
    obtain ⟨d, hd, _⟩ := Option.map_eq_some_iff.mp (Option.filter_eq_some_iff.mp h).1
    obtain ⟨significand, exponent, n, places, e, rfl, hs, he, _⟩ := exists_significand_of_readDecimal? hd
    exact ⟨_, .spelled (.decimal hs he)⟩

theorem readBody?_of_reads {body : List Char} {q : ℚ} (h : Reads body q) (negative : Bool) :
    ∃ x : Number, x.negative = negative ∧ Number.IsNearest q x.magnitude ∧
      readBody? negative body = if x.isFinite then some x else none := by
  have hhex {mark : Char} {rest digits : List Char} {n : Nat} (hm : mark = 'x' ∨ mark = 'X')
      (hrest : rest = digits ∨ rest = '+' :: digits) (hne : digits ≠ []) (hd : Denotes 16 digits n)
      (hn : n < 2 ^ 64) : ∃ x : Number, x.negative = negative ∧ Number.IsNearest n x.magnitude ∧
        readBody? negative ('0' :: mark :: rest) = if x.isFinite then some x else none := by
    have hread := (readHex?_eq_some_iff rest n).mpr ⟨digits, hrest, hne, hd, hn⟩
    refine ⟨_, rfl, isNearest_word n negative, ?_⟩
    rw [readBody?_mark hm, hread, if_pos (isFinite_ofRatio_word hn negative), Option.map_some]
  cases h with
  | plus hm hne hd hn => exact hhex hm (.inr rfl) hne hd hn
  | spelled h =>
    cases h with
    | hexadecimal hm hne hd hn => exact hhex hm (.inl rfl) hne hd hn
    | @decimal _ _ n places e hs he =>
      have hread := readDecimal?_of_significand hs he
      have hnearest := Decimal.magnitude_nearest ⟨n, e - places⟩
      exact ⟨Decimal.toNumber negative ⟨n, e - places⟩, rfl, hnearest, readBody?_decimal hread negative⟩

theorem eq_of_isNearest {x y : Number} {q : ℚ} (hs : x.negative = y.negative) (hx : Number.IsNearest q x.magnitude)
    (hy : Number.IsNearest q y.magnitude) : x = y := by
  obtain ⟨_, m, _⟩ := x
  obtain ⟨_, n, _⟩ := y
  cases hs
  cases hx.unique hy
  rfl

theorem readBody?_eq_some_iff (negative : Bool) (body : List Char) (x : Number) :
    readBody? negative body = some x ↔
      ∃ q, Reads body q ∧ x.negative = negative ∧ x.isFinite ∧ Number.IsNearest q x.magnitude := by
  constructor
  · intro h
    obtain ⟨q, hq⟩ := exists_reads_of_readBody? h
    obtain ⟨y, hs, hy, hread⟩ := readBody?_of_reads hq negative
    rw [h, eq_comm, Option.ite_none_right_eq_some, Option.some_inj] at hread
    obtain ⟨hf, rfl⟩ := hread
    exact ⟨q, hq, hs, hf, hy⟩
  · rintro ⟨q, hq, hs, hf, hx⟩
    obtain ⟨y, hs', hy, hread⟩ := readBody?_of_reads hq negative
    cases eq_of_isNearest (hs.trans hs'.symm) hx hy
    rw [hread, if_pos hf]

theorem Significand.not_isSign {text : List Char} {n places : Nat} (h : Significand text n places) :
    ∀ c ∈ text, ¬ IsSign c := by
  have hpoint : ¬ IsSign '.' := by
    rintro (h | h) <;> cases h
  cases h with
  | whole _ h => exact not_isSign_of_decimal h
  | point _ h =>
    obtain ⟨hw, hf⟩ := List.forall_mem_append.mp (not_isSign_of_decimal h)
    exact List.forall_mem_append.mpr ⟨hw, List.forall_mem_cons.mpr ⟨hpoint, hf⟩⟩
  | fraction _ h => exact List.forall_mem_cons.mpr ⟨hpoint, not_isSign_of_decimal h⟩

theorem Significand.ne_nil {text : List Char} {n places : Nat} (h : Significand text n places) : text ≠ [] := by
  cases h with
  | whole hne _ => exact hne
  | point _ _ => simp
  | fraction _ _ => simp

def SignFollows (previous c : Char) : Prop :=
  IsSign c → previous = 'e' ∨ previous = 'E' ∨ (c = '+' ∧ (previous = 'x' ∨ previous = 'X'))

theorem isChain_of_forall {text : List Char} (h : ∀ c ∈ text, ¬ IsSign c) : text.IsChain SignFollows := by
  apply List.Pairwise.isChain
  apply List.pairwise_of_forall_mem_list
  intro _ _ c hc hs
  exact absurd hs (h c hc)

theorem isChain_append_signless {text rest : List Char} (h : text.IsChain SignFollows)
    (hr : rest.IsChain SignFollows) (hs : Signless rest) : (text ++ rest).IsChain SignFollows := by
  apply h.append hr
  intro _ _ c hc hc'
  exact absurd hc' (hs c hc)

theorem isChain_signed (sign : Sign) {rest : List Char} (hs : Signless rest) (h : rest.IsChain SignFollows) :
    (sign.text ++ rest).IsChain SignFollows := by
  apply isChain_append_signless _ h hs
  cases sign <;> simp [Sign.text]

theorem Exponent.isChain {text : List Char} {e : Int} (h : Exponent text e) :
    text.IsChain SignFollows := by
  cases h with
  | none => exact .nil
  | marked sign hm _ h =>
    have hdigits := not_isSign_of_decimal h
    refine List.isChain_cons.mpr ⟨fun _ _ _ => hm.imp_right .inl, ?_⟩
    exact isChain_signed sign (signless_of_forall hdigits) (isChain_of_forall hdigits)

theorem Exponent.signless {text : List Char} {e : Int} (h : Exponent text e) : Signless text := by
  cases h with
  | none => exact nofun
  | marked sign hm _ _ =>
    intro c hc
    cases hc
    rcases hm with rfl | rfl <;> rintro (h | h) <;> cases h

theorem Reads.signless {body : List Char} {q : ℚ} (h : Reads body q) : Signless body := by
  have hzero : ¬ IsSign '0' := not_isSign_of_isDigit rfl
  rcases h with (_ | ⟨hs, _⟩) | _
  · exact fun _ hc => Option.some_inj.mp hc ▸ hzero
  · intro c hc
    rw [List.head?_append_of_ne_nil _ hs.ne_nil] at hc
    exact hs.not_isSign c (List.mem_of_mem_head? hc)
  · exact fun _ hc => Option.some_inj.mp hc ▸ hzero

theorem Reads.isChain {body : List Char} {q : ℚ} (h : Reads body q) : body.IsChain SignFollows := by
  have hzero : ¬ IsSign '0' := not_isSign_of_isDigit rfl
  have hmark {mark : Char} (hm : mark = 'x' ∨ mark = 'X') : ¬ IsSign mark := by
    rcases hm with rfl | rfl <;> rintro (h | h) <;> cases h
  rcases h with (⟨hm, _, h, _⟩ | ⟨hs, he⟩) | ⟨hm, _, h, _⟩
  · apply isChain_of_forall
    simp only [List.forall_mem_cons]
    exact ⟨hzero, hmark hm, not_isSign_of_hexadecimal h⟩
  · exact isChain_append_signless (isChain_of_forall hs.not_isSign) he.isChain he.signless
  · have hdigits := not_isSign_of_hexadecimal h
    simp only [List.isChain_cons_cons]
    exact ⟨fun hs => absurd hs (hmark hm), fun _ => .inr (.inr ⟨rfl, hm⟩),
      isChain_signed .plus (signless_of_forall hdigits) (isChain_of_forall hdigits)⟩

theorem not_spells_sign_after_mark {mark : Char} (hm : mark = 'x' ∨ mark = 'X') (rest : List Char) (q : ℚ) :
    ¬ Spells ('0' :: mark :: '+' :: rest) q := by
  intro h
  generalize hbody : '0' :: mark :: '+' :: rest = body at h
  cases h with
  | hexadecimal _ _ h _ =>
    cases hbody
    exact not_isSign_of_hexadecimal h '+' List.mem_cons_self (.inl rfl)
  | decimal hs he =>
    have hread := readDecimal?_of_significand hs he
    rw [← hbody, readDecimal?_mark hm] at hread
    cases hread

theorem read?_signed_append (sign : Sign) {body : List Char} (h : Signless body) :
    read? (sign.text ++ body) = readBody? sign.isMinus body := by
  simp only [read?, splitSign_append sign h]

end Literal

open Literal in
/-- A text is read exactly if it is an optional sign and a body that `Reads` allows, with a finite number nearest to its
value: that number. A sign after the first place follows an exponent's letter or, as a plus, a hexadecimal mark. -/
theorem Number.ofLiteral?_eq_some_iff (text : String) (x : Number) :
    (ofLiteral? text = some x ↔ ∃ (sign : Sign) (body : List Char) (q : ℚ), text.toList = sign.text ++ body ∧
      Reads body q ∧ x.negative = sign.isMinus ∧ x.isFinite ∧ IsNearest q x.magnitude) ∧
    (ofLiteral? text = some x → text.toList.IsChain SignFollows) := by
  have hread : ofLiteral? text = some x ↔ ∃ (sign : Sign) (body : List Char) (q : ℚ),
      text.toList = sign.text ++ body ∧ Reads body q ∧ x.negative = sign.isMinus ∧ x.isFinite ∧
        IsNearest q x.magnitude := by
    constructor
    · intro h
      obtain ⟨sign, htext, hminus⟩ := exists_sign text.toList
      obtain ⟨q, hq, hs, hx⟩ := (readBody?_eq_some_iff _ _ _).mp h
      exact ⟨sign, _, q, htext, hq, hs.trans hminus, hx⟩
    · rintro ⟨sign, body, q, htext, hq, hx⟩
      rw [ofLiteral?, htext, read?_signed_append sign hq.signless]
      exact (readBody?_eq_some_iff _ _ _).mpr ⟨q, hq, hx⟩
  refine ⟨hread, ?_⟩
  intro h
  obtain ⟨sign, body, q, htext, hq, _⟩ := hread.mp h
  rw [htext]
  exact isChain_signed sign hq.signless hq.isChain

open Literal in
theorem Number.ofLiteral?_sign_after_mark : ofLiteral? "0x+F" = some (ofNat 15) ∧
    ¬ ∃ (sign : Sign) (body : List Char) (q : ℚ), "0x+F".toList = sign.text ++ body ∧ Spells body q := by
  refine ⟨by decide +kernel, ?_⟩
  rintro ⟨sign, body, q, htext, hspells⟩
  have hbody : splitSign (sign.text ++ body) = (false, ['0', 'x', '+', 'F']) := htext ▸ rfl
  rw [splitSign_append sign (Reads.spelled hspells).signless] at hbody
  obtain ⟨_, rfl⟩ := Prod.mk.inj hbody
  exact not_spells_sign_after_mark (.inl rfl) _ q hspells

namespace Literal

theorem whole_reads {digits : List Char} {n : Nat} (hne : digits ≠ []) (h : Denotes 10 digits n) : Reads digits n := by
  simpa using Reads.spelled (.decimal (.whole hne h) .none)

theorem read?_word {n : Nat} (hn : n < 2 ^ 64) (sign : Sign) {body : List Char} (h : Reads body n) :
    read? (sign.text ++ body) = some (Number.ofRatio sign.isMinus (n * Number.unitsPerOne) 1) := by
  rw [read?_signed_append sign h.signless]
  apply (readBody?_eq_some_iff _ _ _).mpr
  exact ⟨n, h, rfl, isFinite_ofRatio_word hn _, isNearest_word n _⟩

theorem ofRatio_word_isWhole {n : Nat} (hn : n ≤ 2 ^ 53) (negative : Bool) :
    (Number.ofRatio negative (n * Number.unitsPerOne) 1).IsWhole (if negative then -(n : Int) else n) := by
  have hle : n ≤ 2 * Number.binade := hn
  obtain ⟨hf, hu⟩ := Number.units_ofRatio (Number.isShort_whole hle) (Number.whole_lt_infinity hle) negative
  refine ⟨hf, hu.trans ?_⟩
  cases negative <;> simp

end Literal

open Literal in
theorem Number.ofLiteral?_bases_agree {n : Nat} (hn : n < 2 ^ 64) (sign : Sign) {mark : Char}
    (hm : mark = 'x' ∨ mark = 'X') {hexadecimal decimal : List Char} (hhne : hexadecimal ≠ [])
    (hh : Denotes 16 hexadecimal n) (hdne : decimal ≠ []) (hd : Denotes 10 decimal n) :
    ∃ x : Number, ofLiteral? (String.ofList (sign.text ++ '0' :: mark :: hexadecimal)) = some x ∧
      ofLiteral? (String.ofList (sign.text ++ decimal)) = some x ∧
      x.negative = sign.isMinus ∧ x.isFinite ∧ IsNearest n x.magnitude ∧
      (n ≤ 2 ^ 53 → x.IsWhole (if sign.isMinus then -(n : Int) else n)) := by
  refine ⟨ofRatio sign.isMinus (n * unitsPerOne) 1, ?_, ?_, rfl, isFinite_ofRatio_word hn _, isNearest_word n _,
    fun hle => ofRatio_word_isWhole hle _⟩
  · rw [ofLiteral?, String.toList_ofList]
    exact read?_word hn sign (.spelled (.hexadecimal hm hhne hh hn))
  · rw [ofLiteral?, String.toList_ofList]
    exact read?_word hn sign (whole_reads hdne hd)

theorem Number.ofLiteral?_bases_agree_last : ∃ x : Number,
    ofLiteral? "-0X00ffFFffFFffFFffFF" = some x ∧ ofLiteral? "-018446744073709551615" = some x ∧
      x.negative = true ∧ x.isFinite ∧ IsNearest (18446744073709551615 : Nat) x.magnitude ∧
      (18446744073709551615 ≤ 2 ^ 53 → x.IsWhole (-((18446744073709551615 : Nat) : Int))) :=
  ofLiteral?_bases_agree (by decide) .minus (.inr rfl) (by decide)
    ((Literal.hexValue?_eq_some_iff "00ffFFffFFffFFffFF".toList 18446744073709551615).mp (by decide +kernel)) (by decide)
    ((Literal.denotes_ten_iff "018446744073709551615".toList 18446744073709551615).mpr
      ⟨List.all_eq_true.mp (by decide), by decide +kernel⟩)

end StackMachine
