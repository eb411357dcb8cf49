import Mathlib.Data.List.Infix
import StackMachine.Program.Listing
import StackMachine.Proofs.Numerals

namespace StackMachine

namespace Text

theorem lines_line {line : List Char} (h : '\n' ∉ line) (rest : List Char) :
    lines (line ++ '\n' :: rest) = (line ++ ['\n']) :: lines rest := by
  induction line with
  | nil => rfl
  | cons c line ih =>
    obtain ⟨hc, hline⟩ := not_or.mp (mt List.mem_cons.mpr h)
    have hrest := ih hline
    rw [lines] at hrest
    rw [lines, List.cons_append, List.foldr_cons, if_neg (Ne.symm hc), hrest, List.cons_append]

theorem lines_of_notMem {text : List Char} (h : '\n' ∉ text) (hne : text ≠ []) : lines text = [text] := by
  induction text with
  | nil => exact absurd rfl hne
  | cons c text ih =>
    obtain ⟨hc, htext⟩ := not_or.mp (mt List.mem_cons.mpr h)
    rw [lines_cons, if_neg (Ne.symm hc)]
    cases text with
    | nil => rfl
    | cons d text => rw [ih htext nofun]

theorem stripEnd?_append (c : Char) (line : List Char) : stripEnd? c (line ++ [c]) = some line := by
  rw [stripEnd?, List.getLast?_concat, if_pos rfl, List.dropLast_concat]

theorem stripEnd?_of_notMem {c : Char} {line : List Char} (h : c ∉ line) : stripEnd? c line = none := by
  rw [stripEnd?, if_neg fun hl => h (List.mem_of_getLast? hl)]

theorem chomp_line (line : List Char) : chomp (line ++ ['\n']) = line ∨ line = chomp (line ++ ['\n']) ++ ['\r'] := by
  rw [chomp, stripEnd?_append]
  simp only
  rw [stripEnd?]
  split
  · rename_i h
    exact .inr (List.dropLast_append_getLast? _ h).symm
  · exact .inl rfl

end Text

namespace Listing

theorem pieces_cons (p : Char → Bool) (c : Char) (text : List Char) : pieces p (c :: text) =
    if p c then [] :: pieces p text
    else match pieces p text with
      | [] => [[c]]
      | word :: words => (c :: word) :: words := rfl

theorem pieces_of_forall {p : Char → Bool} {word : List Char} (h : ∀ c ∈ word, p c = false) :
    pieces p word = [word] := by
  induction word with
  | nil => rfl
  | cons c word ih =>
    have hc := h c List.mem_cons_self
    rw [pieces_cons, ih (fun a ha => h a (List.mem_cons_of_mem c ha)), if_neg (by simp [hc])]

theorem pieces_append {p : Char → Bool} {word : List Char} (h : ∀ c ∈ word, p c = false) {c : Char} (hc : p c = true)
    (text : List Char) : pieces p (word ++ c :: text) = word :: pieces p text := by
  induction word with
  | nil => rw [List.nil_append, pieces_cons, if_pos hc]
  | cons a word ih =>
    have ha := h a List.mem_cons_self
    rw [List.cons_append, pieces_cons, ih (fun b hb => h b (List.mem_cons_of_mem a hb)), if_neg (by simp [ha])]

theorem pieces_intercalate {p : Char → Bool} {c : Char} (hc : p c = true) {words : List (List Char)}
    (hne : words ≠ []) (h : ∀ word ∈ words, ∀ a ∈ word, p a = false) :
    pieces p (List.intercalate [c] words) = words := by
  induction words with
  | nil => exact absurd rfl hne
  | cons word words ih =>
    have hword := h word List.mem_cons_self
    cases words with
    | nil => simpa using pieces_of_forall hword
    | cons next words =>
      have hrest := ih (by simp) (fun w hw => h w (List.mem_cons_of_mem _ hw))
      rw [List.intercalate_cons_cons, List.append_assoc, List.singleton_append, pieces_append hword hc, hrest]

theorem pieces_cases (p : Char → Bool) (text : List Char) : ∃ first rest, pieces p text = first :: rest ∧
    first <+: text ∧ (∀ c ∈ first, p c = false) ∧ ∀ word ∈ rest, word <:+: text ∧ ∀ c ∈ word, p c = false := by
  induction text with
  | nil => exact ⟨[], [], rfl, List.prefix_rfl, nofun, nofun⟩
  | cons c text ih =>
    obtain ⟨first, rest, he, hfirst, hf, hrest⟩ := ih
    have hrest' : ∀ word ∈ rest, word <:+: c :: text ∧ ∀ a ∈ word, p a = false :=
      fun word hw => ⟨(hrest word hw).1.trans (List.suffix_cons c text).isInfix, (hrest word hw).2⟩
    rw [pieces_cons, he]
    by_cases hc : p c = true
    · refine ⟨[], first :: rest, if_pos hc, List.nil_prefix, nofun, ?_⟩
      intro word hw
      rcases List.mem_cons.mp hw with rfl | hw
      · exact ⟨hfirst.isInfix.trans (List.suffix_cons c text).isInfix, hf⟩
      · exact hrest' word hw
    · refine ⟨c :: first, rest, if_neg hc, (List.prefix_cons_inj c).mpr hfirst, ?_, hrest'⟩
      intro a ha
      rcases List.mem_cons.mp ha with rfl | ha
      · exact Bool.eq_false_of_not_eq_true hc
      · exact hf a ha

theorem mem_pieces {p : Char → Bool} {text word : List Char} (h : word ∈ pieces p text) :
    word <:+: text ∧ ∀ c ∈ word, p c = false := by
  obtain ⟨first, rest, he, hfirst, hf, hrest⟩ := pieces_cases p text
  rw [he] at h
  rcases List.mem_cons.mp h with rfl | h
  · exact ⟨hfirst.isInfix, hf⟩
  · exact hrest word h

theorem code_cons (c : Char) (text : List Char) : code (c :: text) =
    if c = '#' ∨ (c = '/' ∧ text.head? = some '/') then [] else c :: code text := by
  conv_lhs => unfold code
  split
  · rename_i heq
    cases heq
  · rename_i heq
    cases heq
    simp
  · rename_i heq
    cases heq
    simp
  · rename_i hhash hslash heq
    cases heq
    rw [if_neg]
    rintro (rfl | ⟨rfl, hhead⟩)
    · exact hhash rfl
    · obtain ⟨rest, rfl⟩ := List.head?_eq_some_iff.mp hhead
      exact hslash rest rfl rfl

theorem code_cons_eq_self_iff (c : Char) (text : List Char) : code (c :: text) = c :: text ↔
    ¬ (c = '#' ∨ (c = '/' ∧ text.head? = some '/')) ∧ code text = text := by
  rw [code_cons]
  split
  · rename_i h
    exact iff_of_false nofun (fun hn => hn.1 h)
  · rename_i h
    simp [h]

theorem code_prefix (text : List Char) : code text <+: text := by
  induction text with
  | nil => exact List.prefix_rfl
  | cons c text ih =>
    rw [code_cons]
    split
    · exact List.nil_prefix
    · exact (List.prefix_cons_inj c).mpr ih

theorem code_code (text : List Char) : code (code text) = code text := by
  induction text with
  | nil => rfl
  | cons c text ih =>
    rw [code_cons]
    split
    · rfl
    · rename_i h
      refine (code_cons_eq_self_iff c _).mpr ⟨?_, ih⟩
      rintro (hc | ⟨hc, hhead⟩)
      · exact h (.inl hc)
      · obtain ⟨rest, hr⟩ := List.head?_eq_some_iff.mp hhead
        obtain ⟨tail, ht⟩ := code_prefix text
        rw [hr, List.cons_append] at ht
        exact h (.inr ⟨hc, by rw [← ht, List.head?_cons]⟩)

theorem code_of_append_right {before text : List Char} (h : code (before ++ text) = before ++ text) :
    code text = text := by
  induction before with
  | nil => exact h
  | cons c before ih => exact ih ((code_cons_eq_self_iff c _).mp h).2

theorem code_of_append_left {text after : List Char} (h : code (text ++ after) = text ++ after) :
    code text = text := by
  induction text with
  | nil => rfl
  | cons c text ih =>
    obtain ⟨hc, ht⟩ := (code_cons_eq_self_iff c _).mp h
    refine (code_cons_eq_self_iff c text).mpr ⟨?_, ih ht⟩
    rintro (hh | ⟨hs, hhead⟩)
    · exact hc (.inl hh)
    · obtain ⟨rest, rfl⟩ := List.head?_eq_some_iff.mp hhead
      exact hc (.inr ⟨hs, rfl⟩)

theorem code_of_infix {word text : List Char} (ht : code text = text) (h : word <:+: text) : code word = word := by
  obtain ⟨before, after, rfl⟩ := h
  exact code_of_append_right (code_of_append_left ht)

theorem code_of_forall {word : List Char} (h : ∀ c ∈ word, c ≠ '#' ∧ c ≠ '/') : code word = word := by
  induction word with
  | nil => rfl
  | cons c word ih =>
    obtain ⟨hhash, hslash⟩ := h c List.mem_cons_self
    rw [code_cons_eq_self_iff]
    exact ⟨by simp [hhash, hslash], ih fun a ha => h a (List.mem_cons_of_mem c ha)⟩

theorem code_append_blank {word : List Char} (hw : code word = word) (text : List Char) :
    code (word ++ ' ' :: text) = word ++ ' ' :: code text := by
  induction word with
  | nil => rw [List.nil_append, List.nil_append, code_cons, if_neg (by simp)]
  | cons c word ih =>
    obtain ⟨hc, hw⟩ := (code_cons_eq_self_iff c word).mp hw
    have hhead : ¬ (c = '#' ∨ (c = '/' ∧ (word ++ ' ' :: text).head? = some '/')) := by
      cases word with
      | nil => simpa using hc
      | cons a word => exact hc
    rw [List.cons_append, code_cons, if_neg hhead, ih hw, List.cons_append]

theorem pieces_concat {p : Char → Bool} {c : Char} (hc : p c = true) (text : List Char) :
    pieces p (text ++ [c]) = pieces p text ++ [[]] := by
  induction text with
  | nil =>
    rw [List.nil_append, pieces_cons, if_pos hc]
    rfl
  | cons a text ih =>
    obtain ⟨first, rest, he, _⟩ := pieces_cases p text
    rw [List.cons_append, pieces_cons, pieces_cons, ih, he]
    split <;> rfl

theorem code_concat_return (line : List Char) :
    code (line ++ ['\r']) = code line ∨ code (line ++ ['\r']) = code line ++ ['\r'] := by
  induction line with
  | nil => exact .inr rfl
  | cons c line ih =>
    have hhead : (line ++ ['\r']).head? = some '/' ↔ line.head? = some '/' := by
      cases line <;> simp
    simp only [List.cons_append, code_cons, hhead]
    split
    · exact .inl rfl
    · exact ih.imp (congrArg (c :: ·)) (congrArg (c :: ·))

theorem tokens_concat_return (line : List Char) : tokens (line ++ ['\r']) = tokens line := by
  rw [tokens, tokens]
  rcases code_concat_return line with h | h
  · rw [h]
  · rw [h, pieces_concat (by decide), List.filter_append]
    exact List.append_nil _

def rows (source : List Char) : List (List Char) := pieces (· == '\n') source

theorem tokens_chomp (line : List Char) : tokens (Text.chomp (line ++ ['\n'])) = tokens line := by
  rcases Text.chomp_line line with h | h
  · rw [h]
  · conv_rhs => rw [h, tokens_concat_return]

/-- What ends a line, and a line that nothing follows, hold no tokens. -/
theorem flatMap_tokens_lines (source : List Char) : (lines source).flatMap tokens = (rows source).flatMap tokens := by
  induction hn : source.length using Nat.strongRecOn generalizing source with
  | ind n ih =>
    by_cases hm : '\n' ∈ source
    · obtain ⟨line, rest, rfl, hline⟩ := List.eq_append_cons_of_mem hm
      have hrow : rows (line ++ '\n' :: rest) = line :: rows rest := by
        apply pieces_append _ rfl
        intro c hc
        exact beq_eq_false_iff_ne.mpr (ne_of_mem_of_not_mem hc hline)
      have hrest := ih rest.length (by rw [← hn, List.length_append, List.length_cons]; omega) rest rfl
      rw [lines] at hrest ⊢
      rw [Text.lines_line hline, List.map_cons, List.flatMap_cons, tokens_chomp, hrest, hrow, List.flatMap_cons]
    · have hrow : rows source = [source] := by
        apply pieces_of_forall
        intro c hc
        exact beq_eq_false_iff_ne.mpr (ne_of_mem_of_not_mem hc hm)
      rw [hrow]
      cases source with
      | nil => rfl
      | cons c source =>
        rw [lines, Text.lines_of_notMem hm nofun, List.map_singleton, Text.chomp, Text.stripEnd?_of_notMem hm]

structure IsToken (word : List Char) : Prop where
  ne_nil : word ≠ []
  noSeparator : ∀ c ∈ word, isSeparator c = false
  noComment : code word = word

theorem isToken_iff (word : List Char) :
    IsToken word ↔ word ≠ [] ∧ word.all (!isSeparator ·) = true ∧ code word = word := by
  constructor
  · intro h
    exact ⟨h.ne_nil, by simpa using h.noSeparator, h.noComment⟩
  · rintro ⟨hne, hs, hc⟩
    exact ⟨hne, by simpa using hs, hc⟩

instance (word : List Char) : Decidable (IsToken word) := decidable_of_iff _ (isToken_iff word).symm

theorem isToken_of_mem_tokens {line token : List Char} (h : token ∈ tokens line) : IsToken token := by
  obtain ⟨hm, hne⟩ := List.mem_filter.mp h
  obtain ⟨hi, hs⟩ := mem_pieces hm
  exact ⟨by simpa using hne, hs, code_of_infix (code_code line) hi⟩

theorem IsToken.tokens {word : List Char} (h : IsToken word) : tokens word = [word] := by
  rw [Listing.tokens, h.noComment, pieces_of_forall h.noSeparator]
  simp [h.ne_nil]

theorem IsToken.tokens_append {word : List Char} (h : IsToken word) (text : List Char) :
    Listing.tokens (word ++ ' ' :: text) = word :: Listing.tokens text := by
  rw [Listing.tokens, code_append_blank h.noComment, pieces_append h.noSeparator (by decide), List.filter_cons_of_pos]
  · rfl
  · simp [h.ne_nil]

end Listing

namespace Opcode

theorem number_isFinite (op : Opcode) : op.number.isFinite := by
  cases op <;> decide +kernel

theorem isToken_mnemonic (op : Opcode) : Listing.IsToken op.mnemonic.toList := by
  cases op <;> decide

theorem mnemonic_head (op : Opcode) : ∃ c rest, op.mnemonic.toList = c :: rest ∧ c.isAlpha = true := by
  cases op <;> exact ⟨_, _, rfl, rfl⟩

theorem ofMnemonic?_of_not_isAlpha {c : Char} (hc : c.isAlpha = false) (rest : List Char) :
    ofMnemonic? (c :: rest) = none := by
  have hupper : c.toUpper = c := by
    apply dif_neg
    rintro ⟨hl, hu⟩
    have hlower : c.isLower = true := Bool.and_eq_true_iff.mpr ⟨decide_eq_true hl, decide_eq_true hu⟩
    exact absurd (Bool.or_eq_true_iff.mpr (.inr hlower)) (Bool.eq_false_iff.mp hc)
  rw [ofMnemonic?, List.find?_eq_none]
  intro op _ h
  obtain ⟨a, tail, hm, ha⟩ := op.mnemonic_head
  rw [hm, List.map_cons, hupper] at h
  cases eq_of_beq h
  rw [hc] at ha
  cases ha

end Opcode

namespace Literal

theorem isFinite_ofRatio_word {n : Nat} (h : n < wordCount) (negative : Bool) :
    (Number.ofRatio negative (n * Number.unitsPerOne) 1).isFinite := by
  have hlt : ∀ k, n * (1 <<< k) / 1 < 2 ^ (64 + k) := by
    intro k
    rw [Nat.div_one, Nat.shiftLeft_eq, Nat.one_mul, pow_add]
    exact Nat.mul_lt_mul_of_pos_right h (Nat.two_pow_pos k)
  exact decide_eq_true (Number.roundMagnitude_lt_infinity (hlt 1074) (by decide))

theorem isFinite_of_readBody? {negative : Bool} {body : List Char} {x : Number}
    (h : readBody? negative body = some x) : x.isFinite := by
  rcases readBody?_cases negative body with ⟨mark, rest, hm, rfl⟩ | hbody
  · rw [readBody?_mark hm] at h
    obtain ⟨n, hn, rfl⟩ := Option.map_eq_some_iff.mp h
    apply isFinite_ofRatio_word
    simp only [readHex?, Option.ite_none_left_eq_some] at hn
    exact of_decide_eq_true (Option.filter_eq_some_iff.mp hn.2).2
  · rw [hbody] at h
    exact (Option.filter_eq_some_iff.mp h).2

theorem isFinite_of_read? {literal : List Char} {x : Number} (h : read? literal = some x) : x.isFinite :=
  isFinite_of_readBody? h

end Literal

namespace Number

theorem toNat_of_isAlpha {c : Char} (h : c.isAlpha = true) :
    (65 ≤ c.toNat ∧ c.toNat ≤ 90) ∨ (97 ≤ c.toNat ∧ c.toNat ≤ 122) := by
  rcases Bool.or_eq_true_iff.mp h with hu | hl
  · obtain ⟨hA, hZ⟩ := of_decide_eq_true hu
    exact .inl ⟨UInt32.le_iff_toNat_le.mp hA, UInt32.le_iff_toNat_le.mp hZ⟩
  · obtain ⟨ha, hz⟩ := Bool.and_eq_true_iff.mp hl
    exact .inr ⟨UInt32.le_iff_toNat_le.mp (of_decide_eq_true ha), UInt32.le_iff_toNat_le.mp (of_decide_eq_true hz)⟩

theorem isSeparator_of_isAlphanum {c : Char} (h : c.isAlphanum = true) : Listing.isSeparator c = false := by
  have hn : (48 ≤ c.toNat ∧ c.toNat ≤ 57) ∨ (65 ≤ c.toNat ∧ c.toNat ≤ 90) ∨ (97 ≤ c.toNat ∧ c.toNat ≤ 122) := by
    rcases Bool.or_eq_true_iff.mp h with ha | hd
    · exact .inr (toNat_of_isAlpha ha)
    · exact .inl (Char.isDigit_iff_toNat.mp hd)
  have hne : ∀ d : Char, d.isAlphanum = false → (c == d) = false := by
    intro d hd
    rw [beq_eq_false_iff_ne]
    rintro rfl
    rw [h] at hd
    cases hd
  have hblank : Text.isBlank c = false := by
    simp only [Text.isBlank, Text.blankRanges, List.any_cons, List.any_nil, Bool.or_false, Bool.or_eq_false_iff,
      Bool.and_eq_false_imp, decide_eq_true_eq, decide_eq_false_iff_not]
    omega
  rw [Listing.isSeparator, hblank, hne ',' rfl, hne ';' rfl, hne '[' rfl, hne ']' rfl]
  rfl

theorem isAlpha_of_isDigit {c : Char} (h : c.isDigit = true) : c.isAlpha = false := by
  have hn : 48 ≤ c.toNat ∧ c.toNat ≤ 57 := Char.isDigit_iff_toNat.mp h
  rw [← Bool.not_eq_true]
  intro ha
  have hm := toNat_of_isAlpha ha
  omega

theorem numeral_char {x : Number} (h : x.isFinite) {c : Char} (hc : c ∈ x.text.toList) :
    c.isDigit = true ∨ c = '.' ∨ c = '-' := by
  have hu := (Style.positional_magnitudeText x.magnitude).unsigned
  rw [text_toList h] at hc
  split at hc
  · rcases List.mem_cons.mp hc with rfl | hc
    · exact .inr (.inr rfl)
    · exact (hu.all c hc).imp_right .inl
  · exact (hu.all c hc).imp_right .inl

theorem numeral_head {x : Number} (h : x.isFinite) : ∃ c rest, x.text.toList = c :: rest ∧ c.isAlpha = false := by
  rw [text_toList h]
  split
  · exact ⟨_, _, rfl, rfl⟩
  · obtain ⟨c, rest, he, hc⟩ := (Style.positional_magnitudeText x.magnitude).unsigned.head
    exact ⟨c, rest, he, isAlpha_of_isDigit hc⟩

theorem isToken_text {x : Number} (h : x.isFinite) : Listing.IsToken x.text.toList where
  ne_nil := by
    obtain ⟨c, rest, he, _⟩ := numeral_head h
    rw [he]
    exact List.cons_ne_nil c rest
  noSeparator := by
    intro c hc
    rcases numeral_char h hc with hd | rfl | rfl
    · exact isSeparator_of_isAlphanum (Bool.or_eq_true_iff.mpr (.inr hd))
    · decide
    · decide
  noComment := by
    apply Listing.code_of_forall
    intro c hc
    rcases numeral_char h hc with hd | rfl | rfl
    · constructor <;> rintro rfl <;> cases hd
    · decide
    · decide

theorem ofMnemonic?_text {x : Number} (h : x.isFinite) : Opcode.ofMnemonic? x.text.toList = none := by
  obtain ⟨c, rest, he, hc⟩ := numeral_head h
  rw [he]
  exact Opcode.ofMnemonic?_of_not_isAlpha hc rest

end Number

inductive Cell.Listed : Cell → Prop
  | number {x : Number} (h : x.isFinite) : Listed (.number x)
  | label {name : String} (ht : Listing.IsToken name.toList) (hm : Opcode.ofMnemonic? name.toList = none)
      (hr : Literal.read? name.toList = none) : Listed (.label name)

namespace Listing

theorem listed_cell {token : List Char} (h : IsToken token) : (cell token).Listed := by
  rw [cell]
  split
  · exact .number (Opcode.number_isFinite _)
  · rename_i hm
    split
    · rename_i hr
      exact .number (Literal.isFinite_of_read? hr)
    · rename_i hr
      have he := String.toList_ofList (l := token)
      exact .label (he.symm ▸ h) (he.symm ▸ hm) (he.symm ▸ hr)

theorem listed_of_mem_cells {source : List Char} {c : Cell} (h : c ∈ cells source) : c.Listed := by
  obtain ⟨token, ht, rfl⟩ := List.mem_map.mp h
  obtain ⟨line, _, ht⟩ := List.mem_flatMap.mp ht
  exact listed_cell (isToken_of_mem_tokens ht)

theorem cell_mnemonic (op : Opcode) : cell op.mnemonic.toList = .number op.number := by
  rw [cell, Opcode.ofMnemonic?_mnemonic]

end Listing

namespace Cell

theorem Listed.isToken {c : Cell} (h : c.Listed) : Listing.IsToken c.text.toList := by
  cases h with
  | number h => exact Number.isToken_text h
  | label ht _ _ => exact ht

theorem Listed.cell_text {c : Cell} (h : c.Listed) : Listing.cell c.text.toList = c := by
  cases h with
  | @number x h => rw [text, Listing.cell, Number.ofMnemonic?_text h, Number.read?_text h]
  | label ht hm hr => rw [text, Listing.cell, hm, hr, String.ofList_toList]

theorem Listed.equal_self {c : Cell} (h : c.Listed) : c.equal c = true := by
  cases h with
  | number h => exact (Number.equal_iff_units h h).mpr rfl
  | label _ _ _ => exact beq_self_eq_true _

end Cell

end StackMachine
