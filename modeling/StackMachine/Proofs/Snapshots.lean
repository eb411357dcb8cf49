import StackMachine.Proofs.ReadBack
import StackMachine.Proofs.Storage
import StackMachine.Proofs.Tokens
import StackMachine.Machine.State

namespace StackMachine

def isValueChar (c : Char) : Bool := c.isAlphanum || c == '.' || c == '+' || c == '-'

theorem isValueChar_of_isDigit {c : Char} (h : c.isDigit = true) : isValueChar c = true := by
  simp [isValueChar, Char.isAlphanum, h]

theorem isValueChar_flag (flag : Bool) : ∀ c ∈ (if flag then "true" else "false").toList, isValueChar c = true := by
  apply List.all_eq_true.mp
  cases flag <;> decide

theorem Numeral.isValueChar {text : List Char} (h : Numeral text) {c : Char} (hc : c ∈ text) :
    StackMachine.isValueChar c = true := by
  rcases h.all c hc with hd | he
  · exact isValueChar_of_isDigit hd
  · have hmarks : ['.', 'e', '+', '-'].all StackMachine.isValueChar = true := by decide
    exact List.all_eq_true.mp hmarks c he

namespace Number

theorem isValueChar_write {style : Style} (hn : ∀ m, Numeral (style.magnitudeText m))
    (hs : ∀ text ∈ [style.nan, style.infinity, style.negativeInfinity], text.toList.all isValueChar = true)
    (x : Number) : ∀ c ∈ (style.write x).toList, isValueChar c = true := by
  intro c hc
  cases h : x.isFinite with
  | true =>
    rw [Style.write_toList h] at hc
    split at hc
    · rcases List.mem_cons.mp hc with rfl | hc
      · rfl
      · exact (hn _).isValueChar hc
    · exact (hn _).isValueChar hc
  | false => exact List.all_eq_true.mp (hs _ (write_of_not_isFinite h style)) c hc

theorem isValueChar_json (x : Number) : ∀ c ∈ x.json.toList, isValueChar c = true :=
  isValueChar_write Style.numeral_json (by decide) x

theorem isValueChar_text (x : Number) : ∀ c ∈ x.text.toList, isValueChar c = true :=
  isValueChar_write (fun m => (Style.positional_magnitudeText m).unsigned.numeral) (by decide) x

theorem json_injective {x y : Number} (hx : x.isFinite) (hy : y.isFinite) (h : x.json = y.json) : x = y := by
  have hread := read?_json hx
  rw [h, read?_json hy] at hread
  exact (Option.some.inj hread).symm

end Number

namespace Address

theorem not_isFinite_iff (a : Address) : a.toNumber.isFinite = false ↔
    a.magnitude = Number.infinityMagnitude ∨ a.magnitude = Number.nanMagnitude := by
  have hl := a.legal
  have hlt : Number.infinityMagnitude < Number.nanMagnitude := by decide
  rw [Number.isFinite, decide_eq_false_iff_not]
  change ¬ a.magnitude < Number.infinityMagnitude ↔ _
  omega

theorem ext_magnitude {a b : Address} (h : a.magnitude = b.magnitude) : a = b := by
  cases a
  cases b
  simpa using h

theorem text_injective {a b : Address} (h : a.toNumber.text = b.toNumber.text) : a = b := by
  have hread := Number.ofLiteral?_text a.toNumber
  rw [h, Number.ofLiteral?_text b.toNumber] at hread
  apply ext_magnitude
  cases ha : a.toNumber.isFinite <;> cases hb : b.toNumber.isFinite <;> simp only [ha, hb] at hread
  · -- Neither is a literal, and infinity is not written as NaN is.
    have hinf {c : Address} (hc : c.magnitude = Number.infinityMagnitude) : c.toNumber.text = "Infinity" := by
      simp [Number.text, Style.write, Number.isNaN, Number.isInfinite, toNumber, hc, Style.plain]
    have hnan {c : Address} (hc : c.magnitude = Number.nanMagnitude) : c.toNumber.text = "NaN" := by
      have hlt : Number.infinityMagnitude < Number.nanMagnitude := by decide
      simp [Number.text, Style.write, Number.isNaN, toNumber, hc, hlt, Style.plain]
    rcases (not_isFinite_iff a).mp ha with ha | ha <;> rcases (not_isFinite_iff b).mp hb with hb | hb
    · rw [ha, hb]
    · rw [hinf ha, hnan hb] at h
      exact absurd h (by decide)
    · rw [hnan ha, hinf hb] at h
      exact absurd h (by decide)
    · rw [ha, hb]
  · simp at hread
  · simp at hread
  · simp only [↓reduceIte, Option.some.injEq] at hread
    exact congrArg Number.magnitude hread.symm

end Address

namespace Memory

theorem ext_cells {m n : Memory} (h : m.cells = n.cells) : m = n := by
  cases m
  cases n
  simpa using h

theorem names_nodup (memory : Memory) : (memory.entries.map (·.1.text)).Nodup := by
  have h := memory.keys_nodup.map (f := fun a : Address => a.toNumber.text) fun _ _ => Address.text_injective
  rw [List.map_map] at h
  rwa [entries, List.map_map]

end Memory

namespace Snapshot

theorem pieces_append_cons {c : Char} {word : List Char} (h : c ∉ word) (text : List Char) :
    Listing.pieces (· == c) (word ++ c :: text) = word :: Listing.pieces (· == c) text := by
  apply Listing.pieces_append
  · intro a ha
    rw [beq_eq_false_iff_ne]
    exact ne_of_mem_of_not_mem ha h
  · exact beq_self_eq_true c

theorem append_cons_inj {c : Char} {a b r t : List Char} (ha : c ∉ a) (hb : c ∉ b) (h : a ++ c :: r = b ++ c :: t) :
    a = b ∧ r = t := by
  have hp := congrArg (Listing.pieces (· == c)) h
  rw [pieces_append_cons ha, pieces_append_cons hb] at hp
  obtain ⟨rfl, _⟩ := List.cons.inj hp
  exact ⟨rfl, (List.cons.inj (List.append_cancel_left h)).2⟩

theorem intercalate_injective {c : Char} (gap : List Char) {items items' : List (List Char)}
    (hc : ∀ item ∈ items, c ∉ item) (hc' : ∀ item ∈ items', c ∉ item) (hne : items ≠ []) (hne' : items' ≠ [])
    (h : List.intercalate (c :: gap) items = List.intercalate (c :: gap) items') : items = items' := by
  induction items generalizing items' with
  | nil => exact absurd rfl hne
  | cons item items ih =>
    obtain ⟨item', items', rfl⟩ := List.exists_cons_of_ne_nil hne'
    have hi := hc item List.mem_cons_self
    have hi' := hc' item' List.mem_cons_self
    cases items with
    | nil =>
      cases items' with
      | nil => simpa using h
      | cons next' items' =>
        rw [List.intercalate_singleton, List.intercalate_cons_cons] at h
        exact absurd (by rw [h]; simp) hi
    | cons next items =>
      cases items' with
      | nil =>
        rw [List.intercalate_singleton, List.intercalate_cons_cons] at h
        exact absurd (by rw [← h]; simp) hi'
      | cons next' items' =>
        rw [List.intercalate_cons_cons, List.intercalate_cons_cons, List.append_assoc, List.append_assoc,
          List.cons_append, List.cons_append] at h
        obtain ⟨rfl, hrest⟩ := append_cons_inj hi hi' h
        rw [ih (fun a ha => hc a (List.mem_cons_of_mem _ ha)) (fun a ha => hc' a (List.mem_cons_of_mem _ ha))
          (by simp) (by simp) (List.append_cancel_left hrest)]

def inner (items : List String) : List Char :=
  if items.isEmpty then []
  else "\n    ".toList ++ (List.intercalate ",\n    ".toList (items.map String.toList) ++ "\n  ".toList)

theorem spread_toList (opening closing : String) (items : List String) :
    (spread opening closing items).toList = opening.toList ++ (inner items ++ closing.toList) := by
  rw [spread, inner]
  split <;> simp [String.toList_intercalate]

theorem mem_intercalate {c : Char} {gap : List Char} {items : List (List Char)} (h : c ∈ List.intercalate gap items) :
    c ∈ gap ∨ ∃ item ∈ items, c ∈ item := by
  induction items with
  | nil => simp at h
  | cons item items ih =>
    cases items with
    | nil => exact .inr ⟨item, List.mem_cons_self, by simpa using h⟩
    | cons next items =>
      rw [List.intercalate_cons_cons, List.mem_append, List.mem_append] at h
      rcases h with (h | h) | h
      · exact .inr ⟨item, List.mem_cons_self, h⟩
      · exact .inl h
      · apply (ih h).imp_right
        rintro ⟨a, ha, hc⟩
        exact ⟨a, List.mem_cons_of_mem _ ha, hc⟩

theorem notMem_inner {c : Char} {items : List String} (h : ∀ item ∈ items, c ∉ item.toList)
    (hc : c ∉ ['\n', ' ', ',']) : c ∉ inner items := by
  have hgaps : ∀ gap ∈ ["\n    ", ",\n    ", "\n  "], c ∉ gap.toList := by simp_all
  intro hm
  rw [inner] at hm
  split at hm
  · cases hm
  · rw [List.mem_append, List.mem_append] at hm
    rcases hm with hm | hm | hm
    · exact hgaps _ (by simp) hm
    · rcases mem_intercalate hm with hm | ⟨item, hi, hm⟩
      · exact hgaps _ (by simp) hm
      · obtain ⟨text, ht, rfl⟩ := List.mem_map.mp hi
        exact h text ht hm
    · exact hgaps _ (by simp) hm

theorem inner_injective {items items' : List String} (h : ∀ item ∈ items, ',' ∉ item.toList)
    (h' : ∀ item ∈ items', ',' ∉ item.toList) (heq : inner items = inner items') : items = items' := by
  have hcons : ",\n    ".toList = ',' :: "\n    ".toList := by decide
  have hmap {l : List String} (hl : ∀ item ∈ l, ',' ∉ item.toList) : ∀ item ∈ l.map String.toList, ',' ∉ item := by
    simpa using hl
  rw [inner, inner] at heq
  split at heq <;> split at heq
  · rename_i he he'
    rw [List.isEmpty_iff.mp he, List.isEmpty_iff.mp he']
  · exact absurd heq (by simp)
  · exact absurd heq (by simp)
  · rename_i he he'
    have hne : items.map String.toList ≠ [] := by simpa using he
    have hne' : items'.map String.toList ≠ [] := by simpa using he'
    have hcut := List.append_cancel_right (List.append_cancel_left heq)
    rw [hcons] at hcut
    exact List.map_injective_iff.mpr (fun _ _ => String.toList_injective)
      (intercalate_injective _ (hmap h) (hmap h') hne hne' hcut)

theorem append_gap_inj {c : Char} {gap a b r t : List Char} (hg : gap.head? = some c) (ha : c ∉ a) (hb : c ∉ b)
    (h : a ++ (gap ++ r) = b ++ (gap ++ t)) : a = b ∧ r = t := by
  obtain ⟨rest, rfl⟩ := List.head?_eq_some_iff.mp hg
  obtain ⟨hab, hrt⟩ := append_cons_inj ha hb h
  exact ⟨hab, List.append_cancel_left hrt⟩

end Snapshot

namespace State

theorem json_toList (s : State) : s.json.toList = "\x7b\n  \"pc\": ".toList ++ (Nat.toDigits 10 s.pc ++
    (",\n  \"halted\": ".toList ++ ((if s.halted then "true" else "false").toList ++
    (",\n  \"stack\": ".toList ++ ("[".toList ++ (Snapshot.inner (s.stack.bottomFirst.map Number.json) ++ ("]".toList ++
    (",\n  \"memory\": ".toList ++ ("\x7b".toList ++ (Snapshot.inner (Snapshot.members ": " s.memory) ++
    ("\x7d".toList ++ "\n\x7d".toList))))))))))) := by
  delta json
  simp only [Snapshot.spread_toList, String.toList_append, List.append_assoc, Nat.toString_eq_repr, Nat.toList_repr]

end State

namespace Snapshot

def member (cell : Address × Number) : String := quote cell.1.toNumber.text ++ ": " ++ cell.2.json

theorem members_eq (memory : Memory) : members ": " memory = memory.cells.map member := by
  rw [members, Memory.entries, List.map_map]
  rfl

theorem member_toList (cell : Address × Number) : (member cell).toList =
    '"' :: (cell.1.toNumber.text.toList ++ '"' :: (": ".toList ++ cell.2.json.toList)) := by
  have hquote : "\"".toList = ['"'] := by decide
  simp only [member, quote, String.toList_append, hquote, List.append_assoc, List.cons_append, List.nil_append]

theorem notMem_of_isValueChar {c : Char} {text : List Char} (h : ∀ a ∈ text, isValueChar a = true)
    (hc : isValueChar c = false) : c ∉ text := by
  intro hm
  rw [h c hm] at hc
  cases hc

theorem notMem_toDigits {c : Char} (hc : isValueChar c = false) (n : Nat) : c ∉ Nat.toDigits 10 n :=
  notMem_of_isValueChar (fun _ ha => isValueChar_of_isDigit (Style.isDigit_of_mem_toDigits ha)) hc

theorem notMem_member {c : Char} (hc : isValueChar c = false) (hm : c ∉ ['"', ':', ' ']) (cell : Address × Number) :
    c ∉ (member cell).toList := by
  have hcolon : c ∉ ": ".toList := by simp_all
  rw [member_toList]
  simp only [List.mem_cons, List.mem_append, not_or]
  refine ⟨?_, ?_, ?_, ?_, ?_⟩
  · rintro rfl
    exact hm (by simp)
  · exact notMem_of_isValueChar cell.1.toNumber.isValueChar_text hc
  · rintro rfl
    exact hm (by simp)
  · exact hcolon
  · exact notMem_of_isValueChar cell.2.isValueChar_json hc

theorem notMem_members {c : Char} (hc : isValueChar c = false) (hm : c ∉ ['"', ':', ' ']) (memory : Memory) :
    ∀ item ∈ members ": " memory, c ∉ item.toList := by
  intro item hi
  rw [members_eq] at hi
  obtain ⟨cell, _, rfl⟩ := List.mem_map.mp hi
  exact notMem_member hc hm cell

theorem notMem_values {c : Char} (hc : isValueChar c = false) (values : List Number) :
    ∀ item ∈ values.map Number.json, c ∉ item.toList := by
  intro item hi
  obtain ⟨x, _, rfl⟩ := List.mem_map.mp hi
  exact notMem_of_isValueChar x.isValueChar_json hc

theorem member_injective {a b : Address × Number} (ha : a.2.isFinite) (hb : b.2.isFinite) (h : member a = member b) :
    a = b := by
  have hl := congrArg String.toList h
  rw [member_toList, member_toList] at hl
  obtain ⟨_, hl⟩ := List.cons.inj hl
  have hquote (cell : Address × Number) : '"' ∉ cell.1.toNumber.text.toList :=
    notMem_of_isValueChar cell.1.toNumber.isValueChar_text (by decide)
  obtain ⟨htext, hrest⟩ := append_cons_inj (hquote a) (hquote b) hl
  have haddress := Address.text_injective (String.toList_injective htext)
  have hvalue := Number.json_injective ha hb (String.toList_injective (List.append_cancel_left hrest))
  exact Prod.ext haddress hvalue

theorem map_injective_on {α β : Type} {f : α → β} {l l' : List α} (h : ∀ x ∈ l, ∀ y ∈ l', f x = f y → x = y)
    (heq : l.map f = l'.map f) : l = l' := by
  induction l generalizing l' with
  | nil => exact (List.map_eq_nil_iff.mp heq.symm).symm
  | cons x l ih =>
    cases l' with
    | nil => simp at heq
    | cons y l' =>
      obtain ⟨hxy, hrest⟩ := List.cons.inj heq
      rw [h x (by simp) y (by simp) hxy, ih (fun a ha b hb => h a (by simp [ha]) b (by simp [hb])) hrest]

end Snapshot

namespace State

theorem json_fields {s t : State} (h : s.json = t.json) : s.pc = t.pc ∧ s.halted = t.halted ∧
    s.stack.bottomFirst.map Number.json = t.stack.bottomFirst.map Number.json ∧
    Snapshot.members ": " s.memory = Snapshot.members ": " t.memory := by
  have hl := congrArg String.toList h
  rw [json_toList, json_toList] at hl
  -- Each field is followed by a character that cannot stand in it.
  have hdigits (u : State) := Snapshot.notMem_toDigits (c := ',') (by decide) u.pc
  have hflag (u : State) := Snapshot.notMem_of_isValueChar (c := ',') (isValueChar_flag u.halted) (by decide)
  have hstack (u : State) := Snapshot.notMem_inner (c := ']')
    (Snapshot.notMem_values (by decide) u.stack.bottomFirst) (by decide)
  have hmemory (u : State) := Snapshot.notMem_inner (c := '\x7d')
    (Snapshot.notMem_members (by decide) (by decide) u.memory) (by decide)
  obtain ⟨hpc, hl⟩ := Snapshot.append_gap_inj (by decide) (hdigits s) (hdigits t) (List.append_cancel_left hl)
  obtain ⟨hhalted, hl⟩ := Snapshot.append_gap_inj (by decide) (hflag s) (hflag t) hl
  obtain ⟨hs, hl⟩ := Snapshot.append_gap_inj (by decide) (hstack s) (hstack t) (List.append_cancel_left hl)
  obtain ⟨hm, _⟩ := Snapshot.append_gap_inj (by decide) (hmemory s) (hmemory t)
    (List.append_cancel_left (List.append_cancel_left hl))
  refine ⟨?_, ?_, ?_, ?_⟩
  · have hvalue := congrArg Literal.decimalValue hpc
    rwa [Literal.decimalValue_toDigits, Literal.decimalValue_toDigits] at hvalue
  · revert hhalted
    cases s.halted <;> cases t.halted <;> decide
  · exact Snapshot.inner_injective (Snapshot.notMem_values (by decide) _) (Snapshot.notMem_values (by decide) _) hs
  · exact Snapshot.inner_injective (Snapshot.notMem_members (by decide) (by decide) _)
      (Snapshot.notMem_members (by decide) (by decide) _) hm

/-- No number that a snapshot shows as a value is infinite or NaN; addresses may be. -/
structure FiniteData (s : State) : Prop where
  stack : ∀ x ∈ s.stack, x.isFinite
  memory : ∀ cell ∈ s.memory.cells, cell.2.isFinite

theorem data_of_json {s t : State} (hs : s.FiniteData) (ht : t.FiniteData) (h : s.json = t.json) :
    s.pc = t.pc ∧ s.halted = t.halted ∧ s.stack = t.stack ∧ s.memory = t.memory := by
  obtain ⟨hpc, hhalted, hstack, hmemory⟩ := json_fields h
  refine ⟨hpc, hhalted, ?_, ?_⟩
  · apply List.reverse_injective
    apply Snapshot.map_injective_on _ hstack
    intro x hx y hy
    exact Number.json_injective (hs.stack x (List.mem_reverse.mp hx)) (ht.stack y (List.mem_reverse.mp hy))
  · rw [Snapshot.members_eq, Snapshot.members_eq] at hmemory
    apply Memory.ext_cells
    apply Snapshot.map_injective_on _ hmemory
    intro a ha b hb
    exact Snapshot.member_injective (hs.memory a ha) (ht.memory b hb)

end State

namespace Snapshot

def everySecond {α : Type} : List α → List α
  | _ :: x :: rest => x :: everySecond rest
  | _ => []

def quoted (text : List Char) : List (List Char) := everySecond (Listing.pieces (· == '"') text)

def names (document : String) : List String := (quoted document.toList).map String.ofList

/-- `Quotes text found`: wherever the text stands between quotations, these are what it adds to them. -/
def Quotes (text : List Char) (found : List (List Char)) : Prop :=
  ∀ rest, quoted (text ++ rest) = found ++ quoted rest

namespace Quotes

theorem nothing {text : List Char} (h : '"' ∉ text) : Quotes text [] := by
  intro rest
  induction text with
  | nil => rfl
  | cons c text ih =>
    obtain ⟨hc, ht⟩ := List.ne_and_not_mem_of_not_mem_cons h
    rw [← ih ht, quoted, quoted, List.cons_append, Listing.pieces_cons, if_neg (by simpa using Ne.symm hc)]
    -- The character joins the first piece, which stands before any quotation.
    obtain ⟨first, pieces, he, _⟩ := Listing.pieces_cases (· == '"') (text ++ rest)
    rw [he]
    cases pieces <;> rfl

theorem append {a b : List Char} {as bs : List (List Char)} (ha : Quotes a as) (hb : Quotes b bs) :
    Quotes (a ++ b) (as ++ bs) := by
  intro rest
  rw [List.append_assoc, ha, hb, List.append_assoc]

theorem name {text : List Char} (h : '"' ∉ text) : Quotes ('"' :: (text ++ ['"'])) [text] := by
  intro rest
  have hpieces := pieces_append_cons (c := '"') List.not_mem_nil (text ++ '"' :: rest)
  rw [pieces_append_cons h, List.nil_append] at hpieces
  rw [List.cons_append, List.append_assoc, List.singleton_append, quoted, hpieces]
  rfl

theorem field {text : String} (before key : String) (h : text = before ++ quote key ++ ": ") (hb : '"' ∉ before.toList)
    (hk : '"' ∉ key.toList) : Quotes text.toList [key.toList] := by
  have hquote : (quote key).toList = '"' :: (key.toList ++ ['"']) := by simp [quote]
  rw [h, String.toList_append, String.toList_append, hquote]
  exact ((nothing hb).append (name hk)).append (nothing (by decide))

theorem intercalate {α : Type} {gap : List Char} (hg : '"' ∉ gap) {text : α → List Char}
    {found : α → List (List Char)} (h : ∀ x, Quotes (text x) (found x)) (l : List α) :
    Quotes (List.intercalate gap (l.map text)) (l.flatMap found) := by
  induction l with
  | nil => exact nothing List.not_mem_nil
  | cons x l ih =>
    cases l with
    | nil => simpa using h x
    | cons y l =>
      rw [List.map_cons, List.map_cons, List.intercalate_cons_cons, List.flatMap_cons]
      have happend := ((h x).append (nothing hg)).append ih
      rwa [List.append_nil] at happend

theorem inner {α : Type} {text : α → String} {found : α → List (List Char)} (h : ∀ x, Quotes (text x).toList (found x))
    (l : List α) : Quotes (inner (l.map text)) (l.flatMap found) := by
  rw [Snapshot.inner, List.map_map]
  split
  · rename_i he
    rw [List.map_eq_nil_iff.mp (List.isEmpty_iff.mp he)]
    exact nothing List.not_mem_nil
  · have hopening : '"' ∉ "\n    ".toList := by decide
    have hgap : '"' ∉ ",\n    ".toList := by decide
    have hclosing : '"' ∉ "\n  ".toList := by decide
    have happend := (nothing hopening).append ((intercalate hgap h l).append (nothing hclosing))
    rwa [List.append_nil, List.nil_append] at happend

theorem value (x : Number) : Quotes x.json.toList [] :=
  nothing (notMem_of_isValueChar x.isValueChar_json (by decide))

theorem member (cell : Address × Number) : Quotes (member cell).toList [cell.1.toNumber.text.toList] := by
  have hkey := notMem_of_isValueChar (c := '"') cell.1.toNumber.isValueChar_text (by decide)
  have hfield : Quotes (quote cell.1.toNumber.text ++ ": ").toList [cell.1.toNumber.text.toList] :=
    field "" _ (by simp) (by decide) hkey
  rw [Snapshot.member, String.toList_append]
  exact hfield.append (value cell.2)

end Quotes

end Snapshot

namespace State

theorem quotes_json (s : State) : Snapshot.Quotes s.json.toList (["pc".toList, "halted".toList, "stack".toList,
    "memory".toList] ++ s.memory.cells.map fun cell => cell.1.toNumber.text.toList) := by
  have hpc : Snapshot.Quotes "\x7b\n  \"pc\": ".toList ["pc".toList] :=
    Snapshot.Quotes.field "\x7b\n  " _ (by decide) (by decide) (by decide)
  have hhalted : Snapshot.Quotes ",\n  \"halted\": ".toList ["halted".toList] :=
    Snapshot.Quotes.field ",\n  " _ (by decide) (by decide) (by decide)
  have hstack : Snapshot.Quotes ",\n  \"stack\": ".toList ["stack".toList] :=
    Snapshot.Quotes.field ",\n  " _ (by decide) (by decide) (by decide)
  have hmemory : Snapshot.Quotes ",\n  \"memory\": ".toList ["memory".toList] :=
    Snapshot.Quotes.field ",\n  " _ (by decide) (by decide) (by decide)
  have hdigits := Snapshot.Quotes.nothing (Snapshot.notMem_toDigits (by decide) s.pc)
  have hflag := Snapshot.Quotes.nothing (Snapshot.notMem_of_isValueChar (isValueChar_flag s.halted) (by decide))
  have hplain : ∀ text ∈ ["[", "]", "\x7b", "\x7d", "\n\x7d"], Snapshot.Quotes text.toList [] := by
    intro text ht
    apply Snapshot.Quotes.nothing
    revert text
    decide
  have hvalues := Snapshot.Quotes.inner Snapshot.Quotes.value s.stack.bottomFirst
  have hmembers := Snapshot.Quotes.inner Snapshot.Quotes.member s.memory.cells
  rw [List.flatMap_eq_nil_iff.mpr fun _ _ => rfl] at hvalues
  rw [← List.map_eq_flatMap] at hmembers
  rw [json_toList, Snapshot.members_eq]
  have h := hpc.append <| hdigits.append <| hhalted.append <| hflag.append <| hstack.append <|
    (hplain "[" (by simp)).append <| hvalues.append <| (hplain "]" (by simp)).append <| hmemory.append <|
    (hplain "\x7b" (by simp)).append <| hmembers.append <| (hplain "\x7d" (by simp)).append (hplain "\n\x7d" (by simp))
  simpa only [List.append_nil, List.nil_append, List.cons_append] using h

theorem names_json (s : State) : Snapshot.names s.json =
    ["pc", "halted", "stack", "memory"] ++ s.memory.entries.map (·.1.text) := by
  have h := s.quotes_json []
  rw [List.append_nil] at h
  rw [Snapshot.names, h, Memory.entries]
  simp [Snapshot.quoted, Snapshot.everySecond, Listing.pieces]

theorem json_faithful : (∀ s t : State, s.FiniteData → t.FiniteData →
      (s.json = t.json ↔ s.pc = t.pc ∧ s.halted = t.halted ∧ s.stack = t.stack ∧ s.memory = t.memory)) ∧
    ∀ s : State, Snapshot.names s.json = ["pc", "halted", "stack", "memory"] ++ s.memory.entries.map (·.1.text) ∧
      (s.memory.entries.map (·.1.text)).Nodup ∧ s.memory.entries.Pairwise fun e f => e.1.Precedes f.1 := by
  refine ⟨?_, fun s => ⟨s.names_json, s.memory.names_nodup, s.memory.entries_order⟩⟩
  intro s t hs ht
  refine ⟨data_of_json hs ht, ?_⟩
  rintro ⟨hpc, hhalted, hstack, hmemory⟩
  delta json
  rw [hpc, hhalted, hstack, hmemory]

theorem json_faithful_zeros :
    let memory := Memory.afterStores [(Number.nan, Number.zero), (Number.infinity false, Number.signedZero true)]
    let s : State := ⟨⟨#[]⟩, 0, true, [Number.signedZero true], memory⟩
    let t : State := ⟨⟨#[]⟩, 0, true, [Number.zero], memory⟩
    s.FiniteData ∧ t.FiniteData ∧ s.json ≠ t.json := by
  intro memory s t
  have hmemory : ∀ cell ∈ memory.cells, cell.2.isFinite := by decide
  have hs : s.FiniteData := ⟨by decide, hmemory⟩
  have ht : t.FiniteData := ⟨by decide, hmemory⟩
  refine ⟨hs, ht, ?_⟩
  intro h
  obtain ⟨_, _, hstack, _⟩ := (json_faithful.1 s t hs ht).mp h
  exact absurd hstack (by decide)

end State

end StackMachine
