import Mathlib.Data.List.Forall2
import StackMachine.Proofs.Scanner

namespace StackMachine

namespace Listing

theorem pair_prefix_cons_iff (c : Char) (text : List Char) :
    ['/', '/'] <+: c :: text ↔ c = '/' ∧ text.head? = some '/' := by
  rw [List.cons_prefix_cons, List.singleton_prefix_iff_head?_eq_some, eq_comm]

theorem code_eq_self_iff (word : List Char) : code word = word ↔ '#' ∉ word ∧ ¬ ['/', '/'] <:+: word := by
  induction word with
  | nil => simp [code]
  | cons c word ih =>
    rw [code_cons_eq_self_iff, ih, List.mem_cons, List.infix_cons_iff, pair_prefix_cons_iff, eq_comm]
    tauto

theorem scan_comment_body {body : List Char} (h : '\n' ∉ body) (text : List Char) :
    scan .comment (body ++ '\n' :: text) = scan (.token []) text := by
  induction body with
  | nil => exact scan_comment_newline text
  | cons c body ih =>
    obtain ⟨hc, hbody⟩ := not_or.mp (mt List.mem_cons.mpr h)
    rw [List.cons_append, scan_comment_cons (Ne.symm hc), ih hbody]

theorem scan_word {word : List Char} (hs : ∀ c ∈ word, isSeparator c = false) (hw : code word = word)
    {rest : List Char} (hr : rest.head? ≠ some '/') (pending : List Char) :
    scan (.token pending) (word ++ rest) = scan (.token (pending ++ word)) rest := by
  induction word generalizing pending with
  | nil => simp
  | cons c word ih =>
    obtain ⟨hc, hw⟩ := (code_cons_eq_self_iff c word).mp hw
    have hmark : ¬ (c = '#' ∨ (c = '/' ∧ (word ++ rest).head? = some '/')) := by
      cases word with
      | nil => exact fun h => hc (h.imp_right fun h => absurd h.2 hr)
      | cons a word => exact hc
    rw [List.cons_append, scan_token_cons hmark, if_neg (by simp [hs c List.mem_cons_self]),
      ih (fun a ha => hs a (List.mem_cons_of_mem c ha)) hw, List.append_assoc, List.singleton_append]

inductive Filler : List Char → Prop
  | nil : Filler []
  | separator {c : Char} {rest : List Char} (hc : isSeparator c = true) (h : Filler rest) : Filler (c :: rest)
  | comment {mark body rest : List Char} (hm : mark = ['#'] ∨ mark = ['/', '/']) (hb : '\n' ∉ body)
      (h : Filler rest) : Filler (mark ++ body ++ '\n' :: rest)

/-- What separates two words. A comment alone would not do, for a slash that ends a word would join its mark. -/
inductive Gap : List Char → Prop
  | mk {c : Char} {rest : List Char} (hc : isSeparator c = true) (h : Filler rest) : Gap (c :: rest)

/-- `Continues words text`: after a word, the text goes on with these words. -/
inductive Continues : List (List Char) → List Char → Prop
  | done : Continues [] []
  | trailing {gap : List Char} (hg : Gap gap) : Continues [] gap
  | word {gap word rest : List Char} {words : List (List Char)} (hg : Gap gap) (h : Continues words rest) :
      Continues (word :: words) (gap ++ word ++ rest)

inductive LaidOut : List (List Char) → List Char → Prop
  | blank {lead : List Char} (hf : Filler lead) : LaidOut [] lead
  | word {lead word rest : List Char} {words : List (List Char)} (hf : Filler lead) (h : Continues words rest) :
      LaidOut (word :: words) (lead ++ word ++ rest)

theorem scanned_nil : scanned [] = [] := rfl

theorem scanned_of_cons {text rest : List Char} (h : scan (.token []) text = [] :: scan (.token []) rest) :
    scanned text = scanned rest := by
  rw [scanned, h, scanned]
  rfl

theorem Filler.scanned {filler : List Char} (h : Filler filler) (text : List Char) :
    Listing.scanned (filler ++ text) = Listing.scanned text := by
  induction h with
  | nil => rfl
  | separator hc _ ih => exact (scanned_of_cons (scan_token_separator hc [] _)).trans ih
  | @comment mark body rest hm hb _ ih =>
    refine (scanned_of_cons ?_).trans ih
    rw [List.append_assoc, List.append_assoc, List.cons_append]
    rcases hm with rfl | rfl
    · rw [List.singleton_append, scan_token_mark (.inl rfl), scan_comment_body hb]
    · rw [List.cons_append, List.singleton_append, scan_token_mark (.inr ⟨rfl, rfl⟩), scan_comment_cons (by decide),
        scan_comment_body hb]

theorem Gap.filter_scan {gap : List Char} (h : Gap gap) {pending : List Char} (hp : pending ≠ []) (text : List Char) :
    (scan (.token pending) (gap ++ text)).filter (!·.isEmpty) = pending :: Listing.scanned text := by
  obtain ⟨hc, hf⟩ := h
  rw [List.cons_append, scan_token_separator hc, List.filter_cons_of_pos (by simpa using hp), ← hf.scanned text]
  rfl

theorem Continues.head?_ne {words : List (List Char)} {text : List Char} (h : Continues words text) :
    text.head? ≠ some '/' := by
  have hgap : ∀ {gap : List Char}, Gap gap → ∀ after, (gap ++ after).head? ≠ some '/' := by
    rintro _ ⟨hc, _⟩ after he
    cases Option.some.inj he
    revert hc
    decide
  cases h with
  | done => simp
  | trailing hg => simpa using hgap hg []
  | word hg _ =>
    rw [List.append_assoc]
    exact hgap hg _

theorem Continues.filter_scan {words : List (List Char)} {text : List Char} (h : Continues words text)
    (hw : ∀ word ∈ words, IsToken word) {pending : List Char} (hp : pending ≠ []) :
    (scan (.token pending) text).filter (!·.isEmpty) = pending :: words := by
  induction h generalizing pending with
  | done => simp [scan, hp]
  | trailing hg => simpa [scanned_nil] using hg.filter_scan hp []
  | @word gap word rest words hg h ih =>
    have hword := hw word List.mem_cons_self
    rw [List.append_assoc, hg.filter_scan hp, Listing.scanned, scan_word hword.noSeparator hword.noComment h.head?_ne,
      List.nil_append, ih (fun w hm => hw w (List.mem_cons_of_mem word hm)) hword.ne_nil]

theorem LaidOut.scanned {words : List (List Char)} {text : List Char} (h : LaidOut words text)
    (hw : ∀ word ∈ words, IsToken word) : Listing.scanned text = words := by
  cases h with
  | blank hf => simpa [scanned_nil] using hf.scanned []
  | @word lead word rest words hf h =>
    have hword := hw word List.mem_cons_self
    rw [List.append_assoc, hf.scanned, Listing.scanned, scan_word hword.noSeparator hword.noComment h.head?_ne,
      List.nil_append, h.filter_scan (fun w hm => hw w (List.mem_cons_of_mem word hm)) hword.ne_nil]

theorem exists_continues (words : List (List Char)) : ∃ text, Continues words text := by
  induction words with
  | nil => exact ⟨[], .done⟩
  | cons word words ih =>
    obtain ⟨rest, h⟩ := ih
    have hg : Gap [' '] := .mk rfl .nil
    exact ⟨_, .word hg h⟩

theorem exists_laidOut (words : List (List Char)) : ∃ text, LaidOut words text := by
  cases words with
  | nil => exact ⟨[], .blank .nil⟩
  | cons word words =>
    obtain ⟨rest, h⟩ := exists_continues words
    exact ⟨_, .word .nil h⟩

end Listing

namespace Opcode

theorem mem_all (op : Opcode) : op ∈ all := List.mem_of_getElem? op.all_code

theorem ofMnemonic?_eq_none_iff (letters : List Char) :
    ofMnemonic? letters = none ↔ ∀ op : Opcode, letters.map Char.toUpper ≠ op.mnemonic.toList := by
  rw [ofMnemonic?, List.find?_eq_none]
  constructor
  · intro h op he
    exact h op op.mem_all (by rw [he, beq_self_eq_true])
  · intro h op _ he
    exact h op (eq_of_beq he).symm

theorem ofMnemonic?_of_toUpper {letters : List Char} {op : Opcode}
    (h : letters.map Char.toUpper = op.mnemonic.toList) : ofMnemonic? letters = some op := by
  have hupper : op.mnemonic.toList.map Char.toUpper = op.mnemonic.toList := by cases op <;> rfl
  rw [← op.ofMnemonic?_mnemonic, ofMnemonic?, ofMnemonic?, h, hupper]

theorem isAlpha_of_toUpper {c : Char} (h : c.toUpper.isAlpha = true) : c.isAlpha = true := by
  by_cases hl : c.isLower = true
  · exact Bool.or_eq_true_iff.mpr (.inr hl)
  · have hupper : c.toUpper = c := by
      apply dif_neg
      rintro ⟨ha, hz⟩
      exact hl (Bool.and_eq_true_iff.mpr ⟨decide_eq_true ha, decide_eq_true hz⟩)
    rwa [hupper] at h

theorem isToken_of_toUpper {letters : List Char} {op : Opcode}
    (h : letters.map Char.toUpper = op.mnemonic.toList) : Listing.IsToken letters := by
  have hmnemonic : op.mnemonic.toList.all Char.isAlpha = true := by cases op <;> rfl
  have halpha : ∀ c ∈ letters, c.isAlpha = true := by
    intro c hc
    exact isAlpha_of_toUpper (List.all_eq_true.mp hmnemonic _ (h ▸ List.mem_map_of_mem hc))
  refine ⟨?_, ?_, ?_⟩
  · rintro rfl
    exact op.isToken_mnemonic.ne_nil h.symm
  · intro c hc
    exact Number.isSeparator_of_isAlphanum (Bool.or_eq_true_iff.mpr (.inl (halpha c hc)))
  · apply Listing.code_of_forall
    intro c hc
    have ha := halpha c hc
    constructor <;> rintro rfl <;> cases ha

end Opcode

namespace Cell

def WellFormed : Cell → Prop
  | number x => x.isFinite
  | label name => name ≠ "" ∧ (∀ c ∈ name.toList, Listing.isSeparator c = false) ∧ '#' ∉ name.toList ∧
      ¬ ['/', '/'] <:+: name.toList ∧ (∀ op : Opcode, name.toList.map Char.toUpper ≠ op.mnemonic.toList) ∧
      Number.ofLiteral? name = none

theorem wellFormed_iff_listed (c : Cell) : c.WellFormed ↔ c.Listed := by
  cases c with
  | number x => exact ⟨.number, fun | .number h => h⟩
  | label name =>
    have hne : name ≠ "" ↔ name.toList ≠ [] := by simp
    rw [WellFormed, ← Opcode.ofMnemonic?_eq_none_iff, hne]
    constructor
    · rintro ⟨hne, hs, hhash, hslash, hm, hr⟩
      exact .label ⟨hne, hs, (Listing.code_eq_self_iff _).mpr ⟨hhash, hslash⟩⟩ hm hr
    · rintro (_ | ⟨ht, hm, hr⟩)
      obtain ⟨hhash, hslash⟩ := (Listing.code_eq_self_iff _).mp ht.noComment
      exact ⟨ht.ne_nil, ht.noSeparator, hhash, hslash, hm, hr⟩

inductive SpelledBy : Cell → List Char → Prop
  | number (x : Number) : SpelledBy (.number x) x.text.toList
  | mnemonic {op : Opcode} {letters : List Char} (h : letters.map Char.toUpper = op.mnemonic.toList) :
      SpelledBy (.number op.number) letters
  | label (name : String) : SpelledBy (.label name) name.toList

theorem spelledBy_text (c : Cell) : c.SpelledBy c.text.toList := by
  cases c with
  | number x => exact .number x
  | label name => exact .label name

theorem SpelledBy.isToken {c : Cell} {word : List Char} (h : c.SpelledBy word) (hc : c.Listed) :
    Listing.IsToken word := by
  cases h with
  | number x => exact hc.isToken
  | mnemonic h => exact Opcode.isToken_of_toUpper h
  | label name => exact hc.isToken

theorem SpelledBy.cell_eq {c : Cell} {word : List Char} (h : c.SpelledBy word) (hc : c.Listed) :
    Listing.cell word = c := by
  cases h with
  | number x => exact hc.cell_text
  | mnemonic h => rw [Listing.cell, Opcode.ofMnemonic?_of_toUpper h]
  | label name => exact hc.cell_text

end Cell

namespace Listing

theorem isToken_of_spelled {cells : List Cell} {words : List (List Char)} (h : List.Forall₂ Cell.SpelledBy cells words)
    (hc : ∀ c ∈ cells, c.Listed) : ∀ word ∈ words, IsToken word := by
  induction h with
  | nil => exact nofun
  | cons h _ ih =>
    rw [List.forall_mem_cons] at hc ⊢
    exact ⟨h.isToken hc.1, ih hc.2⟩

theorem map_cell_of_spelled {cells : List Cell} {words : List (List Char)}
    (h : List.Forall₂ Cell.SpelledBy cells words) (hc : ∀ c ∈ cells, c.Listed) : words.map cell = cells := by
  induction h with
  | nil => rfl
  | cons h _ ih =>
    rw [List.forall_mem_cons] at hc
    rw [List.map_cons, h.cell_eq hc.1, ih hc.2]

theorem cells_of_laidOut {cells : List Cell} {words : List (List Char)} {text : List Char}
    (hc : ∀ c ∈ cells, c.Listed) (hs : List.Forall₂ Cell.SpelledBy cells words) (hl : LaidOut words text) :
    Listing.cells text = cells := by
  rw [Listing.cells, flatMap_tokens, hl.scanned (isToken_of_spelled hs hc), map_cell_of_spelled hs hc]

theorem exists_source {cells : List Cell} (hc : ∀ c ∈ cells, c.Listed) : ∃ text, Listing.cells text = cells := by
  obtain ⟨text, hl⟩ := exists_laidOut (cells.map (·.text.toList))
  refine ⟨text, cells_of_laidOut hc ?_ hl⟩
  rw [List.forall₂_map_right_iff, List.forall₂_same]
  exact fun c _ => c.spelledBy_text

end Listing

namespace Program

theorem ofListing_image_and_layout (cells : List Cell) :
    ((∃ source, (ofListing source).cells.toList = cells) ↔ ∀ c ∈ cells, c.WellFormed) ∧
      ∀ words source, (∀ c ∈ cells, c.WellFormed) → List.Forall₂ Cell.SpelledBy cells words →
        Listing.LaidOut words source.toList → (ofListing source).cells.toList = cells := by
  simp only [Cell.wellFormed_iff_listed]
  refine ⟨⟨?_, ?_⟩, ?_⟩
  · rintro ⟨source, rfl⟩ c hc
    exact Listing.listed_of_mem_cells hc
  · intro hc
    obtain ⟨text, ht⟩ := Listing.exists_source hc
    exact ⟨String.ofList text, by rw [ofListing, String.toList_ofList, ht, ofCells]⟩
  · intro words source hc hs hl
    rw [ofListing, Listing.cells_of_laidOut hc hs hl, ofCells]

theorem ofListing_image_and_layout_commented :
    (∀ c ∈ [Cell.number Opcode.push.number, .number (Number.signedZero true), .label "a/b"], c.WellFormed) ∧
      (ofListing "//t\npUsH,#x\n-0;[a/b ").cells.toList =
        [.number Opcode.push.number, .number (Number.signedZero true), .label "a/b"] := by
  have hlabel : (Cell.label "a/b").WellFormed :=
    (Cell.wellFormed_iff_listed _).mpr (.label (by decide) (by decide) (by decide))
  have hc : ∀ c ∈ [Cell.number Opcode.push.number, .number (Number.signedZero true), .label "a/b"], c.WellFormed := by
    simp only [List.forall_mem_cons]
    exact ⟨Opcode.push.number_isFinite, rfl, hlabel, nofun⟩
  have hzero : (Number.signedZero true).text.toList = "-0".toList := by decide +kernel
  have hs : List.Forall₂ Cell.SpelledBy
      [.number Opcode.push.number, .number (Number.signedZero true), .label "a/b"]
      ["pUsH".toList, "-0".toList, "a/b".toList] :=
    .cons (.mnemonic rfl) (.cons (hzero ▸ .number _) (.cons (.label _) .nil))
  have htitle : Listing.Filler (['/', '/'] ++ ['t'] ++ '\n' :: []) := .comment (.inr rfl) (by decide) .nil
  have hnote : Listing.Filler (['#'] ++ ['x'] ++ '\n' :: []) := .comment (.inl rfl) (by decide) .nil
  have hbracket : Listing.Gap [';', '['] := .mk rfl (.separator rfl .nil)
  have hend : Listing.Continues [] [' '] := .trailing (.mk rfl .nil)
  have hl : Listing.LaidOut ["pUsH".toList, "-0".toList, "a/b".toList]
      (['/', '/', 't', '\n'] ++ "pUsH".toList ++ ([',', '#', 'x', '\n'] ++ "-0".toList ++
        ([';', '['] ++ "a/b".toList ++ [' ']))) :=
    .word htitle (.word (.mk rfl hnote) (.word hbracket hend))
  exact ⟨hc, (ofListing_image_and_layout _).2 _ _ hc hs hl⟩

end Program

end StackMachine
