import StackMachine.Proofs.Tokens

namespace StackMachine.Listing

inductive Place where
  | token (pending : List Char)
  | comment

def scan : Place → List Char → List (List Char)
  | .token pending, [] => [pending]
  | .token pending, '#' :: text => pending :: scan .comment text
  | .token pending, '/' :: '/' :: text => pending :: scan .comment text
  | .token pending, c :: text =>
    if isSeparator c then pending :: scan (.token []) text else scan (.token (pending ++ [c])) text
  | .comment, [] => []
  | .comment, '\n' :: text => scan (.token []) text
  | .comment, _ :: text => scan .comment text

theorem scan_comment_newline (text : List Char) : scan .comment ('\n' :: text) = scan (.token []) text := by
  rw [scan]

theorem scan_comment_cons {c : Char} (hc : c ≠ '\n') (text : List Char) :
    scan .comment (c :: text) = scan .comment text := by
  rw [scan]
  exact hc

theorem scan_token_mark {c : Char} {text : List Char} (h : c = '#' ∨ (c = '/' ∧ text.head? = some '/'))
    (pending : List Char) : scan (.token pending) (c :: text) = pending :: scan .comment text := by
  rcases h with rfl | ⟨rfl, hhead⟩
  · rw [scan]
  · obtain ⟨rest, rfl⟩ := List.head?_eq_some_iff.mp hhead
    rw [scan, scan_comment_cons (by decide)]

theorem scan_token_cons {c : Char} {text : List Char} (h : ¬ (c = '#' ∨ (c = '/' ∧ text.head? = some '/')))
    (pending : List Char) : scan (.token pending) (c :: text) =
      if isSeparator c then pending :: scan (.token []) text else scan (.token (pending ++ [c])) text := by
  rw [scan]
  · rintro rfl
    exact h (.inl rfl)
  · rintro rest rfl rfl
    exact h (.inr ⟨rfl, rfl⟩)

theorem scan_token_separator {c : Char} (hc : isSeparator c = true) (pending text : List Char) :
    scan (.token pending) (c :: text) = pending :: scan (.token []) text := by
  have hmark : ¬ (c = '#' ∨ (c = '/' ∧ text.head? = some '/')) := by
    rintro (rfl | ⟨rfl, _⟩) <;> revert hc <;> decide
  rw [scan_token_cons hmark, if_pos hc]

def words (line : List Char) : List (List Char) := pieces isSeparator (code line)

theorem rows_cases (text : List Char) : ∃ line rest, rows text = line :: rest ∧
    (text.head? = some '/' ↔ line.head? = some '/') := by
  cases text with
  | nil => exact ⟨[], [], rfl, Iff.rfl⟩
  | cons c text =>
    obtain ⟨line, rest, hl, _⟩ := pieces_cases (· == '\n') text
    have hcons := pieces_cons (· == '\n') c text
    rw [hl] at hcons
    by_cases hc : c = '\n'
    · subst hc
      exact ⟨[], line :: rest, hcons, iff_of_false (by simp) (by simp)⟩
    · rw [if_neg (by simpa using hc)] at hcons
      exact ⟨c :: line, rest, hcons, Iff.rfl⟩

theorem words_mark {c : Char} {line : List Char} (h : c = '#' ∨ (c = '/' ∧ line.head? = some '/')) :
    words (c :: line) = [[]] := by
  rw [words, code_cons, if_pos h]
  rfl

theorem words_separator {c : Char} {line : List Char} (h : ¬ (c = '#' ∨ (c = '/' ∧ line.head? = some '/')))
    (hc : isSeparator c = true) : words (c :: line) = [] :: words line := by
  rw [words, code_cons, if_neg h, pieces_cons, if_pos hc, words]

theorem words_cons {c : Char} {line word : List Char} {rest : List (List Char)}
    (h : ¬ (c = '#' ∨ (c = '/' ∧ line.head? = some '/'))) (hc : isSeparator c = false)
    (hw : words line = word :: rest) : words (c :: line) = (c :: word) :: rest := by
  rw [words] at hw
  rw [words, code_cons, if_neg h, pieces_cons, if_neg (by simp [hc]), hw]

theorem rows_newline (text : List Char) : rows ('\n' :: text) = [] :: rows text := rfl

theorem rows_cons {c : Char} (hc : c ≠ '\n') {text line : List Char} {rest : List (List Char)}
    (h : rows text = line :: rest) : rows (c :: text) = (c :: line) :: rest := by
  rw [rows] at h ⊢
  rw [pieces_cons, if_neg (by simpa using hc), h]

theorem modifyHead_nil_append (tokens : List (List Char)) : tokens.modifyHead ([] ++ ·) = tokens := by
  cases tokens <;> rfl

/--
Both places at once: a token that is pending stands before the first word of the line, and a comment hides the
rest of the line.
-/
theorem scan_eq_words (text : List Char) :
    (∀ pending, scan (.token pending) text = ((rows text).flatMap words).modifyHead (pending ++ ·)) ∧
      scan .comment text = (rows text).tail.flatMap words := by
  induction text with
  | nil =>
    constructor
    · intro pending
      simp [scan, rows, pieces, words, code]
    · rfl
  | cons c text ih =>
    obtain ⟨htoken, hcomment⟩ := ih
    obtain ⟨line, rest, hl, hhead⟩ := rows_cases text
    by_cases hc : c = '\n'
    · subst hc
      have hresume := htoken []
      rw [modifyHead_nil_append] at hresume
      rw [rows_newline]
      constructor
      · intro pending
        rw [scan_token_separator (by decide), hresume]
        simp [words, code, pieces]
      · rw [scan_comment_newline, hresume, List.tail_cons]
    · rw [rows_cons hc hl]
      rw [hl] at htoken hcomment
      refine ⟨fun pending => ?_, (scan_comment_cons hc text).trans hcomment⟩
      by_cases hmark : c = '#' ∨ (c = '/' ∧ text.head? = some '/')
      · rw [scan_token_mark hmark, hcomment, List.flatMap_cons, words_mark (by rwa [← hhead])]
        simp
      · rw [scan_token_cons hmark, List.flatMap_cons]
        rw [hhead] at hmark
        split
        · rename_i hs
          rw [htoken, modifyHead_nil_append, words_separator hmark hs, List.flatMap_cons]
          simp
        · rename_i hs
          obtain ⟨word, others, hw, _⟩ := pieces_cases isSeparator (code line)
          rw [htoken, words_cons hmark (Bool.eq_false_of_not_eq_true hs) hw, List.flatMap_cons, words, hw]
          simp

def scanned (text : List Char) : List (List Char) := (scan (.token []) text).filter (!·.isEmpty)

theorem flatMap_tokens (source : List Char) : (lines source).flatMap tokens = scanned source := by
  rw [flatMap_tokens_lines, scanned, (scan_eq_words source).1, modifyHead_nil_append, List.filter_flatMap]
  rfl

example : scanned "a/b///c\rd\n,/#x\ne".toList = ["a/b".toList, "/".toList, "e".toList] := by
  decide +kernel

end StackMachine.Listing

namespace StackMachine.Program

theorem ofListing_scans (source : String) :
    (ofListing source).cells.toList =
      ((Listing.scan (.token []) source.toList).filter (!·.isEmpty)).map Listing.cell := by
  rw [ofListing, ofCells, Listing.cells, Listing.flatMap_tokens, Listing.scanned]

end StackMachine.Program
