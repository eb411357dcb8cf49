import Mathlib.Logic.Basic
import StackMachine.CommandLine.Scan

namespace StackMachine

theorem except_bind_eq_ok_iff {ε α β : Type} {x : Except ε α} {f : α → Except ε β} {b : β} :
    (x >>= f) = .ok b ↔ ∃ a, x = .ok a ∧ f a = .ok b := by
  cases x with
  | ok a => exact ⟨fun h => ⟨a, rfl, h⟩, fun ⟨_, hx, h⟩ => Except.ok.inj hx ▸ h⟩
  | error e => exact ⟨nofun, nofun⟩

theorem except_throw_ne_ok {ε α : Type} {e : ε} {a : α} : (throw e : Except ε α) ≠ .ok a := by
  intro h
  cases h

theorem except_pure_eq_ok_iff {ε α : Type} {a b : α} : (pure a : Except ε α) = .ok b ↔ b = a :=
  ⟨fun h => (Except.ok.inj h).symm, fun h => h ▸ rfl⟩

namespace Argument

def TakesValue (a : Argument) : Prop := ∃ kind, a.use = .value kind

theorem ofName?_eq_some_iff {name : String} {a : Argument} : ofName? name = some a ↔ a.name = some name := by
  constructor
  · intro h
    have hname := List.find?_some h
    exact beq_iff_eq.mp hname
  · intro h
    cases a <;> cases h <;> rfl

theorem utf8EncodeChar_ofUInt8 {byte : UInt8} (h : byte < 0x80) :
    String.utf8EncodeChar (Char.ofUInt8 byte) = [byte] := by
  have hval : (Char.ofUInt8 byte).val = byte.toUInt32 := rfl
  have hsize : (Char.ofUInt8 byte).utf8Size = 1 := by
    rw [Char.utf8Size_eq_one_iff, hval, UInt32.le_iff_toNat_le, UInt8.toNat_toUInt32]
    exact Nat.le_of_lt_succ (UInt8.lt_iff_toNat_lt.mp h)
  rw [String.utf8EncodeChar_eq_singleton hsize, hval, UInt8.toUInt8_toUInt32]

theorem ofLetter?_eq_some_iff {byte : UInt8} {a : Argument} :
    ofLetter? byte = some a ↔ ∃ c, a.letter = some c ∧ String.utf8EncodeChar c = [byte] := by
  rw [ofLetter?, Option.ite_none_right_eq_some]
  constructor
  · rintro ⟨hlt, h⟩
    have hletter := List.find?_some h
    exact ⟨_, beq_iff_eq.mp hletter, utf8EncodeChar_ofUInt8 hlt⟩
  · rintro ⟨c, hc, hb⟩
    cases a <;> cases hc <;> cases hb <;> exact ⟨by decide, rfl⟩

theorem letter_bytes {a : Argument} {c : Char} (hc : a.letter = some c) :
    ∃ byte, (RawText.ofText (String.singleton c)).bytes = [byte] ∧ ofLetter? byte = some a ∧ byte ≠ 0x2D := by
  cases a <;> cases hc <;> exact ⟨_, rfl, rfl, by decide⟩

theorem singleton_bytes {a : Argument} {byte : UInt8} (h : ofLetter? byte = some a) :
    ∃ c, a.letter = some c ∧ (RawText.ofText (String.singleton c)).bytes = [byte] := by
  obtain ⟨c, hc, hb⟩ := ofLetter?_eq_some_iff.mp h
  refine ⟨c, hc, ?_⟩
  rw [RawText.bytes_ofText, String.toList_singleton, List.flatMap_singleton, hb]

theorem name_bytes {a : Argument} {name : String} (h : a.name = some name) :
    (RawText.ofText name).bytes ≠ [] ∧ 0x3D ∉ (RawText.ofText name).bytes := by
  cases a <;> cases h <;> decide

end Argument

def IsOption (raw : RawText) : Prop := ∃ byte rest, raw.bytes = 0x2D :: byte :: rest

/-- What an option word says after its flags: nothing, an argument whose value is to come, or one with its value. -/
inductive Tail where
  | closed
  | opens (argument : Argument)
  | gives (argument : Argument) (value : RawText)

inductive Cluster : RawText → List Argument → Tail → Prop
  | flag {a : Argument} {c : Char} (hc : a.letter = some c) (hf : a.use = .flag) :
      Cluster (String.singleton c) [a] .closed
  | opens {a : Argument} {c : Char} (hc : a.letter = some c) (hv : a.TakesValue) :
      Cluster (String.singleton c) [] (.opens a)
  | joined {a : Argument} {c : Char} (hc : a.letter = some c) (hv : a.TakesValue) (value : RawText) :
      Cluster (String.singleton c ++ "=" ++ value) [] (.gives a value)
  | glued {a : Argument} {c : Char} (hc : a.letter = some c) (hv : a.TakesValue) {value : RawText}
      (hne : value.bytes ≠ []) (heq : value.bytes.head? ≠ some 0x3D) :
      Cluster (String.singleton c ++ value) [] (.gives a value)
  | cons {a : Argument} {c : Char} (hc : a.letter = some c) (hf : a.use = .flag) {raw : RawText}
      {flags : List Argument} {tail : Tail} (h : Cluster raw flags tail) :
      Cluster (String.singleton c ++ raw) (a :: flags) tail

inductive OptionWord : RawText → List Argument → Tail → Prop
  | flag {a : Argument} {name : String} (h : a.name = some name) (hf : a.use = .flag) :
      OptionWord ("--" ++ name : String) [a] .closed
  | opens {a : Argument} {name : String} (h : a.name = some name) (hv : a.TakesValue) :
      OptionWord ("--" ++ name : String) [] (.opens a)
  | joined {a : Argument} {name : String} (h : a.name = some name) (hv : a.TakesValue) (value : RawText) :
      OptionWord (("--" ++ name : String) ++ "=" ++ value) [] (.gives a value)
  | cluster {raw : RawText} {flags : List Argument} {tail : Tail} (h : Cluster raw flags tail) :
      OptionWord ("-" ++ raw) flags tail

inductive Spells : List RawText → List Item → Prop
  | nil : Spells [] []
  | paths (words : List RawText) : Spells ("--" :: words) (words.map fun raw => ⟨.program, some raw⟩)
  | path {raw : RawText} {words : List RawText} {items : List Item} (h : ¬ IsOption raw) (rest : Spells words items) :
      Spells (raw :: words) (⟨.program, some raw⟩ :: items)
  | raised {raw : RawText} {flags : List Argument} {words : List RawText} {items : List Item}
      (h : OptionWord raw flags .closed) (rest : Spells words items) :
      Spells (raw :: words) (flags.map (Item.mk · none) ++ items)
  | carried {raw value : RawText} {flags : List Argument} {a : Argument} {words : List RawText} {items : List Item}
      (h : OptionWord raw flags (.gives a value)) (rest : Spells words items) :
      Spells (raw :: words) (flags.map (Item.mk · none) ++ ⟨a, some value⟩ :: items)
  | apart {raw value : RawText} {flags : List Argument} {a : Argument} {words : List RawText} {items : List Item}
      (h : OptionWord raw flags (.opens a)) (hv : ¬ IsOption value) (rest : Spells words items) :
      Spells (raw :: value :: words) (flags.map (Item.mk · none) ++ ⟨a, some value⟩ :: items)

namespace Item

variable {given all items : List Item} {i : Item}

def Legal (i : Item) : Prop :=
  match i.argument.use, i.value with
  | .value .path, some raw => raw.bytes ≠ []
  | .value .text, some raw => ∃ text : String, raw = text
  | _, _ => True

theorem check_eq_ok_iff {u : Unit} : i.check = .ok u ↔ i.Legal := by
  obtain ⟨a, value⟩ := i
  simp only [check, Legal]
  generalize a.use = use
  cases value with
  | none => rcases use with _ | (_ | _) | _ <;> exact iff_of_true rfl trivial
  | some raw =>
    rcases use with _ | (_ | _) | _
    case flag => exact iff_of_true rfl trivial
    case exit => exact iff_of_true rfl trivial
    case value.path =>
      simp only [RawText.isEmpty, List.isEmpty_iff]
      split
      · rename_i h
        exact iff_of_false except_throw_ne_ok (not_not_intro h)
      · rename_i h
        exact iff_of_true rfl h
    case value.text =>
      simp only [← RawText.text?_eq_some_iff, ← Option.isSome_iff_exists]
      cases raw.text? with
      | none => exact iff_of_false except_throw_ne_ok Bool.false_ne_true
      | some text => exact iff_of_true rfl rfl

theorem add_eq_ok_iff :
    add given i = .ok all ↔ (i.argument ∉ given.map argument ∧ i.Legal) ∧ all = given ++ [i] := by
  have hany : given.any (·.argument == i.argument) = true ↔ i.argument ∈ given.map argument := by
    rw [List.any_eq_true, List.mem_map]
    simp only [beq_iff_eq]
  rw [add]
  by_cases h : i.argument ∈ given.map argument
  · rw [if_pos (hany.mpr h)]
    exact iff_of_false nofun fun ha => ha.1.1 h
  · rw [if_neg (mt hany.mp h)]
    simp only [except_bind_eq_ok_iff, check_eq_ok_iff, except_pure_eq_ok_iff, h, not_false_eq_true, true_and]
    exact ⟨fun ⟨_, hl, ha⟩ => ⟨hl, ha⟩, fun ⟨hl, ha⟩ => ⟨(), hl, ha⟩⟩

def collect (given items : List Item) : Except EarlyExit (List Item) := items.foldlM add given

theorem collect_cons : collect given (i :: items) = add given i >>= fun all => collect all items := List.foldlM_cons

theorem collect_append (given items more : List Item) :
    collect given (items ++ more) = collect given items >>= fun all => collect all more := List.foldlM_append

theorem collect_singleton (given : List Item) (i : Item) : collect given [i] = add given i := bind_pure _

theorem collect_eq_ok_iff : collect given items = .ok all ↔
    ((items.map argument).Nodup ∧ ∀ i ∈ items, i.argument ∉ given.map argument ∧ i.Legal) ∧ all = given ++ items := by
  induction items generalizing given with
  | nil =>
    rw [List.append_nil, collect, List.foldlM_nil, except_pure_eq_ok_iff]
    simp
  | cons i items ih =>
    have hmem (j : Item) : j.argument ∉ (given ++ [i]).map argument ↔
        j.argument ∉ given.map argument ∧ j.argument ≠ i.argument := by simp
    simp only [collect_cons, except_bind_eq_ok_iff, add_eq_ok_iff, ih, List.map_cons, List.nodup_cons,
      List.forall_mem_cons]
    constructor
    · rintro ⟨_, ⟨hi, rfl⟩, ⟨hnodup, hall⟩, rfl⟩
      refine ⟨⟨⟨?_, hnodup⟩, hi, ?_⟩, by simp⟩
      · intro hm
        obtain ⟨j, hj, hij⟩ := List.mem_map.mp hm
        exact ((hmem j).mp (hall j hj).1).2 hij
      · intro j hj
        exact ⟨((hmem j).mp (hall j hj).1).1, (hall j hj).2⟩
    · rintro ⟨⟨⟨hnew, hnodup⟩, hi, hall⟩, rfl⟩
      refine ⟨_, ⟨hi, rfl⟩, ⟨hnodup, ?_⟩, by simp⟩
      intro j hj
      exact ⟨(hmem j).mpr ⟨(hall j hj).1, fun hij => hnew (List.mem_map.mpr ⟨j, hj, hij⟩)⟩, (hall j hj).2⟩

end Item

end StackMachine
