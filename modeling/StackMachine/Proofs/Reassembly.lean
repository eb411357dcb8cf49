import Mathlib.Data.List.Forall2
import StackMachine.Proofs.Decoding
import StackMachine.Proofs.Sweep
import StackMachine.Proofs.Tokens

namespace StackMachine

namespace Text

theorem lines_flatMap {bodies : List (List Char)} (h : ∀ body ∈ bodies, '\n' ∉ body) :
    lines (bodies.flatMap (· ++ ['\n'])) = bodies.map (· ++ ['\n']) := by
  induction bodies with
  | nil => rfl
  | cons body bodies ih =>
    have hbody := h body List.mem_cons_self
    rw [List.flatMap_cons, List.append_assoc, List.singleton_append, lines_line hbody,
      ih fun b hb => h b (List.mem_cons_of_mem body hb), List.map_cons]

end Text

namespace Listing

theorem IsToken.newline_notMem {word : List Char} (h : IsToken word) : '\n' ∉ word := by
  intro hm
  have hs := h.noSeparator '\n' hm
  revert hs
  decide

theorem cells_intercalate {bodies : List (List Char)} (h : ∀ body ∈ bodies, '\n' ∉ body) :
    cells (List.intercalate ['\n'] bodies) = (bodies.flatMap tokens).map cell := by
  cases bodies with
  | nil => rfl
  | cons body bodies =>
    have hrows : rows (List.intercalate ['\n'] (body :: bodies)) = body :: bodies := by
      apply pieces_intercalate rfl (List.cons_ne_nil body bodies)
      intro word hw c hc
      rw [beq_eq_false_iff_ne]
      rintro rfl
      exact h word hw hc
    rw [cells, flatMap_tokens_lines, hrows]

end Listing

namespace Opcode

theorem number_equal_of_ofNumber? {x : Number} {op : Opcode} (h : ofNumber? x = some op) :
    op.number.equal x = true :=
  (Number.equal_iff_isWhole ((ofNumber?_eq_some_iff_isWhole x op).mp h)).mpr op.number_isWhole

end Opcode

theorem Cell.equal_of_opcode? {cell : Cell} {op : Opcode} (h : cell.opcode? = some op) :
    (Cell.number op.number).equal cell = true := by
  cases cell with
  | number x => exact Opcode.number_equal_of_ofNumber? h
  | label name => cases h

namespace Program

def Listed (p : Program) : Prop := ∀ i, ∀ cell ∈ p.cell? i, cell.Listed

theorem listed_ofListing (source : String) : (ofListing source).Listed := by
  intro i cell hc
  exact Listing.listed_of_mem_cells (List.mem_toArray.mp (Array.mem_of_getElem? hc))

theorem drop_of_cell? {p : Program} {i : Nat} {cell : Cell} (h : p.cell? i = some cell) :
    p.cells.toList.drop i = cell :: p.cells.toList.drop (i + 1) := by
  obtain ⟨hi, rfl⟩ := Array.getElem?_eq_some_iff.mp h
  exact List.drop_eq_getElem_cons hi

end Program

namespace Disassembly

def unmarked : List Char → List Char
  | '.' :: 'd' :: 'a' :: 't' :: 'a' :: ' ' :: rest => rest
  | text => text

def sourceLine (line : List Char) : List Char := unmarked ((line.dropWhile (· != ' ')).drop 2)

def source (text : List Char) : List Char :=
  List.intercalate ['\n'] ((Text.lines text).map fun line => sourceLine (line.takeWhile (· != '\n')))

theorem unmarked_of_isAlpha {c : Char} (h : c.isAlpha = true) (rest : List Char) :
    unmarked (c :: rest) = c :: rest := by
  unfold unmarked
  split
  · rename_i heq
    cases heq
    cases h
  · rfl

def Entry.body (e : Entry) : List Char := (addressText e.address).toList ++ ' ' :: ' ' :: e.content.text.toList

theorem Entry.line_toList (e : Entry) : e.line.toList = e.body ++ ['\n'] := by
  simp [line, body]

theorem Entry.drop_body (e : Entry) : (e.body.dropWhile (· != ' ')).drop 2 = e.content.text.toList := by
  have haddress : ∀ c ∈ (addressText e.address).toList, (c != ' ') = true := by
    intro c hc
    rw [bne_iff_ne]
    rintro rfl
    obtain ⟨d, hd⟩ := Literal.hexDigit?_of_mem (hexValue?_addressText e.address) hc
    cases hd
  rw [body, List.dropWhile_append_of_pos haddress]
  rfl

namespace Content

def source : Content → List Char
  | content@(.instruction _ _) => content.text.toList
  | .data cell => cell.text.toList

/-- The cells that the text stands for. A literal past the end of the program is a label there. -/
def cells : Content → List Cell
  | .instruction op literals => .number op.number :: literals.map (·.getD (.label "?"))
  | .data cell => [cell]

theorem source_suffix (content : Content) : content.source <:+ content.text.toList := by
  cases content with
  | instruction op literals => exact List.suffix_rfl
  | data cell =>
    rw [text, String.toList_append]
    exact List.suffix_append _ _

inductive Listed : Content → Prop
  | plain (op : Opcode) : Listed (.instruction op [])
  | literal (op : Opcode) {literal : Option Cell} (h : ∀ cell ∈ literal, cell.Listed) :
      Listed (.instruction op [literal])
  | data {cell : Cell} (h : cell.Listed) : Listed (.data cell)

theorem text_literal (op : Opcode) (literal : Option Cell) : (instruction op [literal]).text.toList =
    op.mnemonic.toList ++ ' ' :: ((literal.map Cell.text).getD "?").toList := by
  simp [text]

theorem isToken_literal {literal : Option Cell} (h : ∀ cell ∈ literal, cell.Listed) :
    Listing.IsToken ((literal.map Cell.text).getD "?").toList := by
  cases literal with
  | none => exact (by decide : Listing.IsToken "?".toList)
  | some cell => exact (h cell rfl).isToken

theorem cell_literal {literal : Option Cell} (h : ∀ cell ∈ literal, cell.Listed) :
    Listing.cell ((literal.map Cell.text).getD "?").toList = literal.getD (.label "?") := by
  cases literal with
  | none => rfl
  | some cell => exact (h cell rfl).cell_text

theorem Listed.tokens_source {content : Content} (h : content.Listed) :
    (Listing.tokens content.source).map Listing.cell = content.cells := by
  cases h with
  | plain op =>
    have ht := op.isToken_mnemonic.tokens
    rw [source, text, List.foldl_nil, ht, List.map_singleton, Listing.cell_mnemonic]
    rfl
  | literal op h =>
    rw [source, text_literal, op.isToken_mnemonic.tokens_append, (isToken_literal h).tokens, List.map_cons,
      List.map_singleton, Listing.cell_mnemonic, cell_literal h]
    rfl
  | data h =>
    rw [source, h.isToken.tokens, List.map_singleton, h.cell_text]
    rfl

theorem Listed.newline_notMem {content : Content} (h : content.Listed) : '\n' ∉ content.text.toList := by
  cases h with
  | plain op => exact op.isToken_mnemonic.newline_notMem
  | literal op h =>
    rw [text_literal, List.mem_append, List.mem_cons]
    rintro (hm | hm | hm)
    · exact op.isToken_mnemonic.newline_notMem hm
    · cases hm
    · exact (isToken_literal h).newline_notMem hm
  | data h =>
    rw [text, String.toList_append, List.mem_append]
    rintro (hm | hm)
    · revert hm
      decide
    · exact h.isToken.newline_notMem hm

end Content

theorem Content.Listed.unmarked_text {content : Content} (h : content.Listed) :
    unmarked content.text.toList = content.source := by
  cases h with
  | plain op =>
    obtain ⟨c, rest, hm, hc⟩ := op.mnemonic_head
    rw [source, text, List.foldl_nil, hm, unmarked_of_isAlpha hc]
  | literal op h =>
    obtain ⟨c, rest, hm, hc⟩ := op.mnemonic_head
    rw [source, text_literal, hm, List.cons_append, unmarked_of_isAlpha hc]
  | data h =>
    rw [text, String.toList_append]
    rfl

theorem sourceLine_body {e : Entry} (h : e.content.Listed) : sourceLine e.body = e.content.source := by
  rw [sourceLine, e.drop_body, h.unmarked_text]

theorem Entry.takeWhile_line {e : Entry} (h : '\n' ∉ e.body) :
    (e.body ++ ['\n']).takeWhile (· != '\n') = e.body := by
  rw [List.takeWhile_append_of_pos]
  · simp
  · intro c hc
    rw [bne_iff_ne]
    rintro rfl
    exact h hc

theorem newline_notMem_body {e : Entry} (h : e.content.Listed) : '\n' ∉ e.body := by
  rw [Entry.body, List.mem_append, List.mem_cons, List.mem_cons]
  rintro (hm | hm | hm | hm)
  · obtain ⟨d, hd⟩ := Literal.hexDigit?_of_mem (hexValue?_addressText e.address) hm
    cases hd
  · cases hm
  · cases hm
  · exact h.newline_notMem hm

theorem cells_source {entries : List Entry} (h : ∀ e ∈ entries, e.content.Listed) :
    Listing.cells (source (entries.flatMap fun e => e.line.toList)) = entries.flatMap (·.content.cells) := by
  have hlines : Text.lines (entries.flatMap fun e => e.line.toList) = entries.map (·.body ++ ['\n']) := by
    have hbodies : ∀ body ∈ entries.map Entry.body, '\n' ∉ body := by
      intro body hb
      obtain ⟨e, he, rfl⟩ := List.mem_map.mp hb
      exact newline_notMem_body (h e he)
    have hl := Text.lines_flatMap hbodies
    rw [List.flatMap_map, List.map_map] at hl
    simp only [Entry.line_toList]
    exact hl
  have hmap : (entries.map (·.body ++ ['\n'])).map (fun line => sourceLine (line.takeWhile (· != '\n'))) =
      entries.map (·.content.source) := by
    rw [List.map_map]
    apply List.map_congr_left
    intro e he
    rw [Function.comp_apply, Entry.takeWhile_line (newline_notMem_body (h e he)), sourceLine_body (h e he)]
  rw [source, hlines, hmap, Listing.cells_intercalate, List.flatMap_map, List.map_flatMap]
  · exact List.flatMap_congr fun e he => (h e he).tokens_source
  · intro body hb hn
    obtain ⟨e, he, rfl⟩ := List.mem_map.mp hb
    exact (h e he).newline_notMem (e.content.source_suffix.subset hn)

theorem listed_entriesFrom {p : Program} (h : p.Listed) (address : Nat) :
    ∀ e ∈ entriesFrom p address, e.content.Listed := by
  induction address using sweep_induction (p := p) with
  | past address hs =>
    rw [entriesFrom_of_size_le hs]
    exact nofun
  | plain address cell op hc ho hp ih =>
    rw [entriesFrom_of_opcode (Option.bind_eq_some_iff.mpr ⟨cell, hc, ho⟩) hp, List.forall_mem_cons]
    exact ⟨.plain op, ih⟩
  | push address cell hc ho ih =>
    rw [entriesFrom_of_push (Option.bind_eq_some_iff.mpr ⟨cell, hc, ho⟩), List.forall_mem_cons]
    exact ⟨.literal .push (h (address + 1)), ih⟩
  | data address cell hc ho ih =>
    rw [entriesFrom_of_data hc ho, List.forall_mem_cons]
    exact ⟨.data (h address cell hc), ih⟩

def Truncated (entries : List Entry) : Prop :=
  entries.getLast?.map (·.content) = some (.instruction .push [none])

instance (entries : List Entry) : Decidable (Truncated entries) := inferInstanceAs (Decidable (_ = _))

theorem truncated_cons {e : Entry} (he : e.content ≠ .instruction .push [none]) (entries : List Entry) :
    Truncated (e :: entries) ↔ Truncated entries := by
  rw [Truncated, Truncated, List.getLast?_cons]
  cases entries.getLast? with
  | none => simp [he]
  | some last => rfl

def missing (entries : List Entry) : List Cell := if Truncated entries then [.label "?"] else []

theorem missing_cons {e : Entry} (he : e.content ≠ .instruction .push [none]) (entries : List Entry) :
    missing (e :: entries) = missing entries := by
  simp only [missing, truncated_cons he]

theorem cells_entriesFrom {p : Program} (h : p.Listed) (address : Nat) :
    List.Forall₂ (fun a b => a.equal b = true) ((entriesFrom p address).flatMap (·.content.cells))
      (p.cells.toList.drop address ++ missing (entriesFrom p address)) := by
  induction address using sweep_induction (p := p) with
  | past address hs =>
    rw [entriesFrom_of_size_le hs, List.drop_of_length_le hs]
    exact .nil
  | plain address cell op hc ho hp ih =>
    rw [entriesFrom_of_opcode (Option.bind_eq_some_iff.mpr ⟨cell, hc, ho⟩) hp, missing_cons (by simp),
      Program.drop_of_cell? hc]
    exact .cons (Cell.equal_of_opcode? ho) ih
  | push address cell hc ho ih =>
    rw [entriesFrom_of_push (Option.bind_eq_some_iff.mpr ⟨cell, hc, ho⟩), Program.drop_of_cell? hc]
    cases hl : p.cell? (address + 1) with
    | none =>
      -- Only here is a literal missing, and then the sweep is over.
      have hs := (p.cell?_eq_none_iff (address + 1)).mp hl
      rw [entriesFrom_of_size_le (Nat.le_succ_of_le hs), List.drop_of_length_le hs]
      exact .cons (Cell.equal_of_opcode? ho) (.cons rfl .nil)
    | some literal =>
      rw [missing_cons (by simp), Program.drop_of_cell? hl]
      exact .cons (Cell.equal_of_opcode? ho) (.cons (h _ literal hl).equal_self ih)
  | data address cell hc ho ih =>
    rw [entriesFrom_of_data hc ho, missing_cons (by simp), Program.drop_of_cell? hc]
    exact .cons (h address cell hc).equal_self ih

end Disassembly

namespace Program

def reassemble (p : Program) : Program :=
  ofListing (String.ofList (Disassembly.source p.disassemble.toList))

theorem equal_iff_forall₂ (p q : Program) :
    p.equal q = true ↔ List.Forall₂ (fun a b => a.equal b = true) p.cells.toList q.cells.toList := by
  rw [List.forall₂_iff_zip]
  simp [equal, size]

theorem cells_reassemble {p : Program} (h : p.Listed) :
    p.reassemble.cells.toList = p.disassembly.flatMap (·.content.cells) := by
  have hlines : p.disassemble.toList = p.disassembly.flatMap fun e => e.line.toList := by
    rw [disassemble, String.toList_join, List.flatMap_map]
  rw [reassemble, ofListing, String.toList_ofList, hlines]
  exact Disassembly.cells_source (Disassembly.listed_entriesFrom h 0)

theorem reassemble_equal_iff (source : String) :
    (ofListing source).reassemble.equal (ofListing source) = true ↔
      ¬ Disassembly.Truncated (ofListing source).disassembly := by
  have hlisted := listed_ofListing source
  have hcells := Disassembly.cells_entriesFrom hlisted 0
  rw [← Disassembly.disassembly_eq, ← cells_reassemble hlisted, List.drop_zero] at hcells
  rw [equal_iff_forall₂]
  constructor
  · -- A missing literal is listed as a label, one cell more than the program has.
    intro hequal ht
    have hlength := hcells.length_eq
    rw [hequal.length_eq, List.length_append, Disassembly.missing, if_pos ht] at hlength
    simp at hlength
  · intro ht
    rwa [Disassembly.missing, if_neg ht, List.append_nil] at hcells

end Program

end StackMachine
