import Mathlib.Data.List.Nodup
import StackMachine.Proofs.OptionWords

namespace StackMachine

namespace Scan

variable {s : Scan} {given items rest : List Item} {raw : RawText} {words : List RawText} {pending : Pending}

def finish (s : Scan) (words : List RawText) : Except EarlyExit (List Item) := do
  let t ← words.foldlM Scan.word s
  return (← t.resolve).given

theorem finish_cons (s : Scan) (raw : RawText) (words : List RawText) :
    s.finish (raw :: words) = s.word raw >>= fun t => t.finish words := by
  simp only [finish, List.foldlM_cons, bind_assoc]

theorem finish_nil (hr : s.Ready) : s.finish [] = Item.collect s.given s.pending.items := by
  simp only [finish, List.foldlM_nil, pure_bind, resolve_eq hr, taking, List.append_nil, bind_assoc, bind_pure]

theorem taking_finish_iff (h : ∀ all, { s with given := all, pending }.finish words = .ok given ↔
      Item.collect all rest = .ok given) :
    (s.taking items pending >>= fun t => t.finish words) = .ok given ↔
      Item.collect s.given (s.pending.items ++ (items ++ rest)) = .ok given := by
  simp only [taking, bind_assoc, pure_bind, ← List.append_assoc, Item.collect_append _ _ rest, except_bind_eq_ok_iff, h]

theorem collect_ne_of_hasProgram (hp : s.hasProgram = true) :
    Item.collect s.given (s.pending.items ++ ⟨.program, some raw⟩ :: items) ≠ .ok given := by
  intro h
  obtain ⟨⟨hnodup, hall⟩, _⟩ := Item.collect_eq_ok_iff.mp h
  have hnew := (hall ⟨.program, some raw⟩ (by simp)).1
  have hgiven : s.given.any (·.argument == .program) = false := by
    rw [List.any_eq_false]
    intro i hi hprogram
    exact hnew (List.mem_map.mpr ⟨i, hi, beq_iff_eq.mp hprogram⟩)
  rw [hasProgram, hgiven, Bool.false_or] at hp
  cases hpending : s.pending <;> rw [hpending] at hp hnodup <;> simp_all [Pending.items]

theorem programPath_finish_iff (hr : s.Ready)
    (h : ∀ all, { s with given := all, pending := .item ⟨.program, some raw⟩ }.finish words = .ok given ↔
      Item.collect all (⟨.program, some raw⟩ :: items) = .ok given) :
    (s.programPath raw >>= fun t => t.finish words) = .ok given ↔
      Item.collect s.given (s.pending.items ++ ⟨.program, some raw⟩ :: items) = .ok given := by
  cases hp : s.hasProgram with
  | true =>
    refine iff_of_false ?_ (collect_ne_of_hasProgram hp)
    intro h
    rw [programPath, hp] at h
    cases h
  | false =>
    rw [programPath_eq hr hp]
    exact taking_finish_iff h

theorem finish_trailing_iff (ht : s.trailing = true) (hr : s.Ready) :
    s.finish words = .ok given ↔
      Item.collect s.given (s.pending.items ++ words.map fun raw => ⟨.program, some raw⟩) = .ok given := by
  induction words generalizing s with
  | nil => rw [finish_nil hr, List.map_nil, List.append_nil]
  | cons raw words ih =>
    rw [finish_cons, Scan.word, ht]
    apply programPath_finish_iff hr
    intro all
    exact ih ht (.of_item rfl)

theorem ready_of_finish (h : s.finish [] = .ok given) : s.Ready := by
  rw [finish, List.foldlM_nil, pure_bind] at h
  obtain ⟨_, hresolve, _⟩ := except_bind_eq_ok_iff.mp h
  exact ready_of_resolve hresolve

theorem finish_ne_ok_of_awaiting {a : Argument} (ht : s.trailing = true) (hp : s.pending = .awaiting a) :
    s.finish words ≠ .ok given := by
  intro h
  cases words with
  | nil => exact ready_of_finish h a hp
  | cons raw words =>
    rw [finish_cons, Scan.word, ht] at h
    obtain ⟨_, hpath, _⟩ := except_bind_eq_ok_iff.mp h
    exact (programPath_follows hpath).ready a hp

-- Where a value is awaited the words do not spell anything by themselves, so the induction carries both cases.
theorem exists_spells (ht : s.trailing = false) (h : s.finish words = .ok given) :
    (s.Ready → ∃ items, Spells words items) ∧ ∀ a, s.pending = .awaiting a →
      ∃ value rest items, words = value :: rest ∧ ¬ IsOption value ∧ Spells rest items := by
  induction words generalizing s with
  | nil =>
    refine ⟨fun _ => ⟨[], .nil⟩, ?_⟩
    intro a hp
    exact absurd hp (ready_of_finish h a)
  | cons raw words ih =>
    rw [finish_cons] at h
    obtain ⟨t, hword, hrest⟩ := except_bind_eq_ok_iff.mp h
    by_cases hd : raw = "--"
    · subst hd
      refine ⟨fun _ => ⟨_, .paths words⟩, ?_⟩
      intro a hp
      rw [Scan.word, ht] at hword
      cases hword
      exact absurd hrest (finish_ne_ok_of_awaiting rfl hp)
    by_cases ho : IsOption raw
    · obtain ⟨flags, tail, hw, hf⟩ := word_follows ht ho hd hword
      have hnext := ih (hf.trailing_eq.trans ht) hrest
      refine ⟨fun _ => ?_, fun a hp => absurd hp (hf.ready a)⟩
      cases tail with
      | closed =>
        obtain ⟨items, hs⟩ := hnext.1 (.of_nothing hf.pending_eq)
        exact ⟨_, .raised hw hs⟩
      | gives a value =>
        obtain ⟨items, hs⟩ := hnext.1 (.of_nothing hf.pending_eq)
        exact ⟨_, .carried hw hs⟩
      | opens a =>
        obtain ⟨value, rest, items, rfl, hvalue, hs⟩ := hnext.2 _ hf.pending_eq
        exact ⟨_, .apart hw hvalue hs⟩
    · constructor
      · intro hr
        have hf := programPath_follows (plain_eq hr raw ▸ word_plain ht ho ▸ hword)
        obtain ⟨items, hs⟩ := (ih (hf.trailing_eq.trans ht) hrest).1 (.of_item hf.pending_eq)
        exact ⟨_, .path ho hs⟩
      · intro a hp
        rw [word_awaited ht hp ho] at hword
        cases hword
        obtain ⟨items, hs⟩ := (ih (s := { s with pending := .item ⟨a, some raw⟩ }) ht hrest).1 (.of_item rfl)
        exact ⟨raw, words, items, rfl, ho, hs⟩

end Scan

theorem Spells.finish_eq_ok_iff {words : List RawText} {items given : List Item} (h : Spells words items) {s : Scan}
    (ht : s.trailing = false) (hr : s.Ready) :
    s.finish words = .ok given ↔ Item.collect s.given (s.pending.items ++ items) = .ok given := by
  induction h generalizing s with
  | nil => rw [Scan.finish_nil hr, List.append_nil]
  | paths words =>
    have hw : s.word "--" = .ok { s with trailing := true } := by
      rw [Scan.word, ht]
      rfl
    rw [Scan.finish_cons, hw]
    exact Scan.finish_trailing_iff rfl hr
  | path hw _ ih =>
    rw [Scan.finish_cons, Scan.word_plain ht hw, Scan.plain_eq hr]
    apply Scan.programPath_finish_iff hr
    intro all
    exact ih ht (.of_item rfl)
  | raised hw _ ih =>
    rw [Scan.finish_cons, hw.word_eq ht hr, Tail.items, List.append_nil]
    apply Scan.taking_finish_iff
    intro all
    exact ih ht (.of_nothing rfl)
  | @carried raw value flags a words items hw _ ih =>
    rw [Scan.finish_cons, hw.word_eq ht hr, List.append_cons _ ⟨a, some value⟩ items]
    apply Scan.taking_finish_iff
    intro all
    exact ih ht (.of_nothing rfl)
  | @apart raw value flags a words items hw hvalue _ ih =>
    rw [Scan.finish_cons, hw.word_eq ht hr, Tail.items, List.append_nil]
    apply Scan.taking_finish_iff
    intro all
    have hword := Scan.word_awaited (s := { s with given := all, pending := .awaiting a }) ht rfl hvalue
    rw [Tail.pending, Scan.finish_cons, hword]
    exact ih ht (.of_item rfl)

def Item.Shaped (i : Item) : Prop :=
  (i.argument.use = .flag ∧ i.value = none) ∨ (i.argument.TakesValue ∧ i.value.isSome)

def Tail.Takes : Tail → Prop
  | closed => True
  | opens a | gives a _ => a.TakesValue

theorem Cluster.uses {raw : RawText} {flags : List Argument} {tail : Tail} (h : Cluster raw flags tail) :
    (∀ a ∈ flags, a.use = .flag) ∧ tail.Takes := by
  induction h with
  | flag hc hf => exact ⟨fun a ha => List.mem_singleton.mp ha ▸ hf, trivial⟩
  | opens hc hv | joined hc hv | glued hc hv => exact ⟨nofun, hv⟩
  | cons hc hf h ih => exact ⟨List.forall_mem_cons.mpr ⟨hf, ih.1⟩, ih.2⟩

theorem OptionWord.uses {raw : RawText} {flags : List Argument} {tail : Tail} (h : OptionWord raw flags tail) :
    (∀ a ∈ flags, a.use = .flag) ∧ tail.Takes := by
  cases h with
  | flag h hf => exact ⟨fun a ha => List.mem_singleton.mp ha ▸ hf, trivial⟩
  | opens h hv | joined h hv => exact ⟨nofun, hv⟩
  | cluster h => exact h.uses

theorem Item.shaped_flags {flags : List Argument} (h : ∀ a ∈ flags, a.use = .flag) :
    ∀ i ∈ flags.map (Item.mk · none), i.Shaped := by
  intro i hi
  obtain ⟨a, ha, rfl⟩ := List.mem_map.mp hi
  exact .inl ⟨h a ha, rfl⟩

theorem Spells.shaped {words : List RawText} {items : List Item} (h : Spells words items) :
    ∀ i ∈ items, i.Shaped := by
  have hpath (raw : RawText) : Item.Shaped ⟨.program, some raw⟩ := .inr ⟨⟨.path, rfl⟩, rfl⟩
  induction h with
  | nil => exact nofun
  | paths words =>
    intro i hi
    obtain ⟨raw, _, rfl⟩ := List.mem_map.mp hi
    exact hpath raw
  | path hw _ ih => exact List.forall_mem_cons.mpr ⟨hpath _, ih⟩
  | raised hw _ ih => exact List.forall_mem_append.mpr ⟨Item.shaped_flags hw.uses.1, ih⟩
  | carried hw _ ih | apart hw _ _ ih =>
    exact List.forall_mem_append.mpr
      ⟨Item.shaped_flags hw.uses.1, List.forall_mem_cons.mpr ⟨.inr ⟨hw.uses.2, rfl⟩, ih⟩⟩

structure Admissible (items : List Item) : Prop where
  once : (items.map Item.argument).Nodup
  legal : ∀ i ∈ items, i.Legal
  compatible : ∀ i ∈ items, ∀ j ∈ items, i.argument.excludes j.argument = false

theorem Item.checkConflicts_eq_ok_iff {items : List Item} {u : Unit} : checkConflicts items = .ok u ↔
    ∀ i ∈ items, ∀ j ∈ items, i.argument.excludes j.argument = false := by
  rw [checkConflicts]
  split
  · rename_i h
    obtain ⟨i, hi, hj⟩ := List.any_eq_true.mp h
    obtain ⟨j, hj, hij⟩ := List.any_eq_true.mp hj
    refine iff_of_false nofun fun hall => ?_
    rw [hall i hi j hj] at hij
    cases hij
  · rename_i h
    refine iff_of_true rfl fun i hi j hj => Bool.eq_false_iff.mpr fun hij => h ?_
    exact List.any_eq_true.mpr ⟨i, hi, List.any_eq_true.mpr ⟨j, hj, hij⟩⟩

namespace Arguments

variable {a : Arguments} {words : List RawText} {items : List Item}

def Holds (a : Arguments) (i : Item) : Prop :=
  match i.argument, i.value with
  | .program, some raw => a.program = some raw
  | .file, some raw => a.file = some raw
  | .eval, some raw => a.eval.map RawText.ofText = some raw
  | .logLevel, some raw => a.level.map RawText.ofText = some raw
  | .disassemble, none => a.options.disassemble = true
  | .trace, none => a.options.trace = true
  | .dumpState, none => a.options.dumpState = true
  | _, _ => False

section Items

variable (hn : (items.map Item.argument).Nodup)

include hn

theorem find?_eq_some_iff (i : Item) : items.find? (·.argument == i.argument) = some i ↔ i ∈ items := by
  constructor
  · exact List.mem_of_find?_eq_some
  · intro hi
    cases hf : items.find? (·.argument == i.argument) with
    | none => exact absurd (beq_self_eq_true i.argument) (List.find?_eq_none.mp hf i hi)
    | some j =>
      have hj := List.find?_some hf
      rw [List.inj_on_of_nodup_map hn (List.mem_of_find?_eq_some hf) hi (beq_iff_eq.mp hj)]

theorem value_eq_some_iff (argument : Argument) (raw : RawText) :
    (items.find? (·.argument == argument)).bind Item.value = some raw ↔ ⟨argument, some raw⟩ ∈ items := by
  rw [← find?_eq_some_iff hn, Option.bind_eq_some_iff]
  constructor
  · rintro ⟨⟨other, value⟩, hf, rfl⟩
    have hargument := List.find?_some hf
    rw [beq_iff_eq] at hargument
    rw [hf, ← hargument]
  · intro hf
    exact ⟨_, hf, rfl⟩

theorem text_eq_some_iff (hl : ∀ i ∈ items, i.Legal) {argument : Argument} (hu : argument.use = .value .text)
    (raw : RawText) : (((items.find? (·.argument == argument)).bind Item.value).bind RawText.text?).map RawText.ofText =
      some raw ↔ ⟨argument, some raw⟩ ∈ items := by
  rw [← value_eq_some_iff hn, Option.map_eq_some_iff]
  constructor
  · rintro ⟨text, ht, rfl⟩
    obtain ⟨raw, hraw, ht⟩ := Option.bind_eq_some_iff.mp ht
    rw [hraw, RawText.text?_eq_some_iff.mp ht]
  · intro hraw
    have hlegal := hl _ ((value_eq_some_iff hn argument raw).mp hraw)
    simp only [Item.Legal, hu] at hlegal
    obtain ⟨text, rfl⟩ := hlegal
    exact ⟨text, by rw [hraw, Option.bind_some, RawText.text?_eq_some_iff.mpr rfl], rfl⟩

end Items

theorem any_eq_true_iff (hs : ∀ i ∈ items, i.Shaped) {argument : Argument} (hu : argument.use = .flag) :
    items.any (·.argument == argument) = true ↔ ⟨argument, none⟩ ∈ items := by
  rw [List.any_eq_true]
  constructor
  · rintro ⟨⟨other, value⟩, hi, ho⟩
    obtain rfl := beq_iff_eq.mp ho
    rcases hs _ hi with ⟨_, hv⟩ | ⟨⟨kind, hv⟩, _⟩
    · rwa [show value = none from hv] at hi
    · cases hu.symm.trans hv
  · intro hi
    exact ⟨_, hi, beq_self_eq_true argument⟩

theorem ofItems_holds_iff (hn : (items.map Item.argument).Nodup) (hl : ∀ i ∈ items, i.Legal)
    (hs : ∀ i ∈ items, i.Shaped) (i : Item) : (ofItems items).Holds i ↔ i ∈ items := by
  have hno {i : Item} (h : ¬ i.Shaped) : False ↔ i ∈ items := iff_of_false id fun hi => h (hs i hi)
  obtain ⟨argument, value⟩ := i
  cases value with
  | some raw =>
    cases argument with
    | program | file => exact value_eq_some_iff hn _ raw
    | eval | logLevel => exact text_eq_some_iff hn hl rfl raw
    | disassemble | trace | dumpState | help | version => exact hno (by rintro (⟨_, h⟩ | ⟨⟨_, h⟩, _⟩) <;> cases h)
  | none =>
    cases argument with
    | disassemble | trace | dumpState => exact any_eq_true_iff hs rfl
    | program | file | eval | logLevel | help | version => exact hno (by rintro (⟨h, _⟩ | ⟨_, h⟩) <;> cases h)

theorem parse_eq_ok_iff (h : Spells words items) :
    parse words = .ok a ↔ Admissible items ∧ a = ofItems items := by
  have hparse : parse words = ({} : Scan).finish words >>= fun given => do
      Item.checkConflicts given
      return ofItems given := by
    simp only [parse, Scan.finish, bind_assoc, pure_bind]
  have hfinish (given : List Item) : ({} : Scan).finish words = .ok given ↔ Item.collect [] items = .ok given :=
    h.finish_eq_ok_iff (s := {}) rfl (.of_nothing rfl)
  simp only [hparse, except_bind_eq_ok_iff, hfinish, Item.collect_eq_ok_iff, Item.checkConflicts_eq_ok_iff,
    except_pure_eq_ok_iff, List.nil_append]
  constructor
  · rintro ⟨_, ⟨⟨hnodup, hall⟩, rfl⟩, _, hc, rfl⟩
    exact ⟨⟨hnodup, fun i hi => (hall i hi).2, hc⟩, rfl⟩
  · rintro ⟨hitems, rfl⟩
    exact ⟨items, ⟨⟨hitems.once, fun i hi => ⟨List.not_mem_nil, hitems.legal i hi⟩⟩, rfl⟩, (), hitems.compatible, rfl⟩

theorem exists_spells_of_parse (h : parse words = .ok a) : ∃ items, Spells words items := by
  obtain ⟨t, hwords, hrest⟩ := except_bind_eq_ok_iff.mp h
  obtain ⟨u, hresolve, _⟩ := except_bind_eq_ok_iff.mp hrest
  have hfinish : ({} : Scan).finish words = .ok u.given :=
    except_bind_eq_ok_iff.mpr ⟨t, hwords, except_bind_eq_ok_iff.mpr ⟨u, hresolve, rfl⟩⟩
  exact (Scan.exists_spells (s := {}) rfl hfinish).1 (.of_nothing rfl)

theorem exists_parse_iff (words : List RawText) :
    (∃ a, parse words = .ok a) ↔ ∃ items, Spells words items ∧ Admissible items := by
  constructor
  · rintro ⟨a, h⟩
    obtain ⟨items, hs⟩ := exists_spells_of_parse h
    exact ⟨items, hs, ((parse_eq_ok_iff hs).mp h).1⟩
  · rintro ⟨items, hs, hitems⟩
    exact ⟨_, (parse_eq_ok_iff hs).mpr ⟨hitems, rfl⟩⟩

/--
What a reader of command lines owes to the declarations. It accepts nothing but what is spelled, refuses an argument
that is given twice and two of which one declares a conflict with the other, sets each argument that is given to a
value given for it, and sets nothing else.
-/
structure FollowsDeclarations (read : List RawText → Except EarlyExit Arguments) : Prop where
  spelled : ∀ {words a}, read words = .ok a → ∃ items, Spells words items
  once : ∀ {words a items}, read words = .ok a → Spells words items → (items.map Item.argument).Nodup
  compatible : ∀ {words a items}, read words = .ok a → Spells words items →
    ∀ i ∈ items, ∀ j ∈ items, i.argument.excludes j.argument = false
  given_set : ∀ {words a items}, read words = .ok a → Spells words items →
    ∀ i ∈ items, ∃ j ∈ items, j.argument = i.argument ∧ a.Holds j
  set_given : ∀ {words a items}, read words = .ok a → Spells words items → ∀ i, a.Holds i → i ∈ items

theorem parse_followsDeclarations : FollowsDeclarations parse where
  spelled := exists_spells_of_parse
  once h hs := ((parse_eq_ok_iff hs).mp h).1.once
  compatible h hs := ((parse_eq_ok_iff hs).mp h).1.compatible
  given_set h hs i hi := by
    obtain ⟨hitems, rfl⟩ := (parse_eq_ok_iff hs).mp h
    exact ⟨i, hi, rfl, (ofItems_holds_iff hitems.once hitems.legal hs.shaped i).mpr hi⟩
  set_given h hs i hi := by
    obtain ⟨hitems, rfl⟩ := (parse_eq_ok_iff hs).mp h
    exact (ofItems_holds_iff hitems.once hitems.legal hs.shaped i).mp hi

theorem FollowsDeclarations.holds_iff {read : List RawText → Except EarlyExit Arguments}
    (hr : FollowsDeclarations read) (h : read words = .ok a) (hs : Spells words items) (i : Item) :
    a.Holds i ↔ i ∈ items := by
  refine ⟨hr.set_given h hs i, ?_⟩
  intro hi
  obtain ⟨j, hj, hij, hholds⟩ := hr.given_set h hs i hi
  rwa [← List.inj_on_of_nodup_map (hr.once h hs) hj hi hij]

end Arguments

def Argument.sources : List Argument := [program, file, eval]

/-- Between any two sources a conflict is declared, on one side or the other. -/
theorem Argument.excludes_of_sources : ∀ a ∈ sources, ∀ b ∈ sources, a ≠ b → a.excludes b = true := by
  decide

namespace Arguments

variable {a : Arguments} {words : List RawText} {items : List Item}

def OneSource (a : Arguments) : Prop :=
  (a.program = none ∨ a.file = none) ∧ (a.program = none ∨ a.eval = none) ∧ (a.file = none ∨ a.eval = none)

theorem oneSource_of_compatible (hheld : ∀ i, a.Holds i → i ∈ items)
    (hc : ∀ i ∈ items, ∀ j ∈ items, i.argument.excludes j.argument = false) : a.OneSource := by
  have hpair (b c : Argument) (hb : b ∈ Argument.sources) (hc' : c ∈ Argument.sources) (hne : b ≠ c)
      {raw other : RawText} (hi : a.Holds ⟨b, some raw⟩) (hj : a.Holds ⟨c, some other⟩) : False := by
    have hex := Argument.excludes_of_sources b hb c hc' hne
    rw [hc _ (hheld _ hi) _ (hheld _ hj)] at hex
    cases hex
  have hnone {α β : Type} {x : Option α} {y : Option β} (hxy : ∀ t u, x = some t → y = some u → False) :
      x = none ∨ y = none := by
    cases x <;> cases y <;> simp_all
  refine ⟨hnone ?_, hnone ?_, hnone ?_⟩
  · intro path other hp hf
    exact hpair .program .file (by decide) (by decide) nofun hp hf
  · intro path text hp he
    exact hpair .program .eval (by decide) (by decide) nofun hp (congrArg (Option.map RawText.ofText) he)
  · intro path text hf he
    exact hpair .file .eval (by decide) (by decide) nofun hf (congrArg (Option.map RawText.ofText) he)

theorem holds_eval_iff (text : String) : a.Holds ⟨.eval, some text⟩ ↔ a.eval = some text := by
  have hmap : a.Holds ⟨.eval, some text⟩ ↔ a.eval.map RawText.ofText = some (RawText.ofText text) := Iff.rfl
  rw [hmap]
  cases a.eval with
  | none => exact iff_of_false nofun nofun
  | some other => rw [Option.map_some, Option.some_inj, Option.some_inj, RawText.ofText_inj]

theorem source_eq_file_iff (h : a.OneSource) (path : RawText) :
    a.source = .file path ↔ a.Holds ⟨.program, some path⟩ ∨ a.Holds ⟨.file, some path⟩ := by
  obtain ⟨hpf, _⟩ := h
  rw [source, Holds, Holds]
  cases hp : a.program <;> cases hf : a.file <;> cases he : a.eval <;> simp_all

theorem source_eq_inline_iff (h : a.OneSource) (text : String) :
    a.source = .inline text ↔ a.Holds ⟨.eval, some text⟩ := by
  obtain ⟨_, hpe, hfe⟩ := h
  rw [source, holds_eval_iff]
  cases hp : a.program <;> cases hf : a.file <;> cases he : a.eval <;> simp_all

theorem source_eq_demo_iff (a : Arguments) : a.source = .demo ↔ ∀ i, a.Holds i → i.argument ∉ Argument.sources := by
  have hnone : a.source = .demo ↔ a.program = none ∧ a.file = none ∧ a.eval = none := by
    rw [source]
    cases a.program <;> cases a.file <;> cases a.eval <;> simp
  rw [hnone]
  constructor
  · rintro ⟨hp, hf, he⟩ ⟨argument, value⟩ hi hs
    cases argument <;> cases value <;> simp_all [Holds, Argument.sources]
  · intro h
    simp only [Option.eq_none_iff_forall_ne_some]
    refine ⟨?_, ?_, ?_⟩
    · intro path hp
      exact h ⟨.program, some path⟩ hp (by simp [Argument.sources])
    · intro path hf
      exact h ⟨.file, some path⟩ hf (by simp [Argument.sources])
    · intro text he
      exact h ⟨.eval, some text⟩ ((holds_eval_iff text).mpr he) (by simp [Argument.sources])

theorem sources_are_kept :
    FollowsDeclarations parse ∧
    (∀ words, (∃ a, parse words = .ok a) ↔ ∃ items, Spells words items ∧ Admissible items) ∧
    ∀ read, FollowsDeclarations read → ∀ words a, read words = .ok a →
      a.OneSource ∧ (∃ items, Spells words items) ∧ ∀ items, Spells words items →
        (∀ path, a.source = .file path ↔ ⟨.program, some path⟩ ∈ items ∨ ⟨.file, some path⟩ ∈ items) ∧
        (∀ text : String, a.source = .inline text ↔ ⟨.eval, some text⟩ ∈ items) ∧
        (a.source = .demo ↔ ∀ i ∈ items, i.argument ∉ Argument.sources) := by
  refine ⟨parse_followsDeclarations, exists_parse_iff, ?_⟩
  intro read hr words a h
  obtain ⟨items, hs⟩ := hr.spelled h
  have hone : a.OneSource := oneSource_of_compatible (hr.set_given h hs) (hr.compatible h hs)
  refine ⟨hone, ⟨items, hs⟩, ?_⟩
  intro items hs
  have hholds := hr.holds_iff h hs
  refine ⟨?_, ?_, ?_⟩
  · intro path
    rw [source_eq_file_iff hone, hholds, hholds]
  · intro text
    rw [source_eq_inline_iff hone, hholds]
  · simp only [source_eq_demo_iff, hholds]

def clusterThenPath : List RawText := ["-dtf", ⟨[0x61, 0xFF]⟩, "--dump-state"]

theorem sources_are_kept_clusterThenPath :
    FollowsDeclarations parse ∧
      Spells clusterThenPath
        [⟨.disassemble, none⟩, ⟨.trace, none⟩, ⟨.file, some ⟨[0x61, 0xFF]⟩⟩, ⟨.dumpState, none⟩] ∧
      ∃ a, parse clusterThenPath = .ok a ∧ a.OneSource ∧ a.source = .file ⟨[0x61, 0xFF]⟩ := by
  have hcluster : Cluster "dtf" [.disassemble, .trace] (.opens .file) :=
    .cons (c := 'd') rfl rfl (.cons (c := 't') rfl rfl (.opens (c := 'f') rfl ⟨.path, rfl⟩))
  have hflag : OptionWord "--dump-state" [.dumpState] .closed := @OptionWord.flag .dumpState "dump-state" rfl rfl
  have hvalue : ¬ IsOption ⟨[0x61, 0xFF]⟩ := by
    rintro ⟨byte, rest, h⟩
    cases h
  have hs : Spells clusterThenPath
      [⟨.disassemble, none⟩, ⟨.trace, none⟩, ⟨.file, some ⟨[0x61, 0xFF]⟩⟩, ⟨.dumpState, none⟩] :=
    .apart (.cluster hcluster) hvalue (.raised hflag .nil)
  have hparse : parse clusterThenPath =
      .ok { file := some ⟨[0x61, 0xFF]⟩, options := ⟨true, true, true⟩ } := by rfl
  obtain ⟨hfollows, _, hkept⟩ := sources_are_kept
  obtain ⟨hone, _, hitems⟩ := hkept parse hfollows clusterThenPath _ hparse
  obtain ⟨hfile, _⟩ := hitems _ hs
  exact ⟨hfollows, hs, _, hparse, hone, (hfile _).mpr (.inr (by simp))⟩

end Arguments

end StackMachine
