import Mathlib.Data.List.TakeWhile
import StackMachine.Proofs.Spelling

namespace StackMachine

def Tail.items : Tail → List Item
  | closed | opens _ => []
  | gives a value => [⟨a, some value⟩]

def Tail.pending : Tail → Pending
  | opens a => .awaiting a
  | closed | gives _ _ => .nothing

def Pending.items : Pending → List Item
  | nothing | awaiting _ => []
  | item i => [i]

namespace Scan

variable {s t : Scan} {raw value : RawText} {flags : List Argument} {tail : Tail} {a : Argument}

def Ready (s : Scan) : Prop := ∀ a, s.pending ≠ .awaiting a

theorem Ready.of_nothing (h : s.pending = .nothing) : s.Ready := by
  intro a ha
  cases h.symm.trans ha

theorem Ready.of_item {i : Item} (h : s.pending = .item i) : s.Ready := by
  intro a ha
  cases h.symm.trans ha

def taking (s : Scan) (items : List Item) (pending : Pending) : Except EarlyExit Scan := do
  let given ← Item.collect s.given (s.pending.items ++ items)
  return { s with given, pending }

theorem taking_bind (s : Scan) (items more : List Item) (pending : Pending) :
    (s.taking items .nothing >>= fun t => t.taking more pending) = s.taking (items ++ more) pending := by
  simp only [taking, ← List.append_assoc, Item.collect_append, bind_assoc, pure_bind]
  rfl

theorem taking_eq_ok_iff {items : List Item} {pending : Pending} : s.taking items pending = .ok t ↔
    ∃ given, Item.collect s.given (s.pending.items ++ items) = .ok given ∧ t = { s with given, pending } := by
  simp only [taking, except_bind_eq_ok_iff, except_pure_eq_ok_iff]

theorem taking_bind_congr {α : Type} {items : List Item} {pending : Pending} {f g : Scan → Except EarlyExit α}
    (h : ∀ given, f { s with given, pending } = g { s with given, pending }) :
    (s.taking items pending >>= f) = s.taking items pending >>= g := by
  simp only [taking, bind_assoc, pure_bind, h]

theorem resolve_eq (h : s.Ready) : s.resolve = s.taking [] .nothing := by
  obtain ⟨given, pending, trailing⟩ := s
  cases pending with
  | nothing => rfl
  | awaiting a => exact absurd rfl (h a)
  | item i => simp only [resolve, taking, Pending.items, List.append_nil, Item.collect_singleton]

theorem take_eq (h : s.Ready) (i : Item) : s.take i = s.taking [i] .nothing := by
  simp only [take, resolve_eq h, taking, List.append_nil, Item.collect_append, Item.collect_singleton, bind_assoc,
    pure_bind]

theorem await_eq (h : s.Ready) (a : Argument) : s.await a = s.taking [] (.awaiting a) := by
  simp only [await, resolve_eq h, taking, bind_assoc, pure_bind]

theorem programPath_eq (h : s.Ready) (hp : s.hasProgram = false) (raw : RawText) :
    s.programPath raw = s.taking [] (.item ⟨.program, some raw⟩) := by
  simp only [programPath, hp, Bool.false_eq_true, ↓reduceIte, resolve_eq h, taking, bind_assoc, pure_bind]

theorem letters_flag {byte : UInt8} (ho : Argument.ofLetter? byte = some a) (hf : a.use = .flag) (hr : s.Ready)
    (rest : List UInt8) :
    s.letters (byte :: rest) = s.taking [⟨a, none⟩] .nothing >>= fun t => t.letters rest := by
  simp only [letters, ho, hf, take_eq hr]

theorem letters_opens {byte : UInt8} (ho : Argument.ofLetter? byte = some a) (hv : a.TakesValue) (hr : s.Ready) :
    s.letters [byte] = s.taking [] (.awaiting a) := by
  obtain ⟨kind, hv⟩ := hv
  simp only [letters, ho, hv, await_eq hr]

theorem letters_joined {byte : UInt8} (ho : Argument.ofLetter? byte = some a) (hv : a.TakesValue) (hr : s.Ready)
    (value : List UInt8) : s.letters (byte :: 0x3D :: value) = s.taking [⟨a, some ⟨value⟩⟩] .nothing := by
  obtain ⟨kind, hv⟩ := hv
  simp only [letters, ho, hv, take_eq hr]

theorem letters_glued {byte : UInt8} (ho : Argument.ofLetter? byte = some a) (hv : a.TakesValue) (hr : s.Ready)
    {value : List UInt8} (hne : value ≠ []) (heq : value.head? ≠ some 0x3D) :
    s.letters (byte :: value) = s.taking [⟨a, some ⟨value⟩⟩] .nothing := by
  obtain ⟨kind, hv⟩ := hv
  rw [letters, ho]
  simp only [hv]
  split
  · exact absurd rfl hne
  · exact absurd rfl heq
  · exact take_eq hr _

end Scan

theorem Cluster.letters_eq {s : Scan} {raw : RawText} {flags : List Argument} {tail : Tail}
    (h : Cluster raw flags tail) (hr : s.Ready) :
    s.letters raw.bytes = s.taking (flags.map (Item.mk · none) ++ tail.items) tail.pending := by
  induction h generalizing s with
  | flag hc hf =>
    obtain ⟨byte, hb, ho, _⟩ := Argument.letter_bytes hc
    rw [hb, Scan.letters_flag ho hf hr]
    exact bind_pure _
  | opens hc hv =>
    obtain ⟨byte, hb, ho, _⟩ := Argument.letter_bytes hc
    rw [hb, Scan.letters_opens ho hv hr]
    rfl
  | joined hc hv value =>
    obtain ⟨byte, hb, ho, _⟩ := Argument.letter_bytes hc
    rw [RawText.bytes_append, RawText.bytes_append, hb]
    exact Scan.letters_joined ho hv hr value.bytes
  | glued hc hv hne heq =>
    obtain ⟨byte, hb, ho, _⟩ := Argument.letter_bytes hc
    rw [RawText.bytes_append, hb]
    exact Scan.letters_glued ho hv hr hne heq
  | cons hc hf h ih =>
    obtain ⟨byte, hb, ho, _⟩ := Argument.letter_bytes hc
    rw [RawText.bytes_append, hb, List.singleton_append, Scan.letters_flag ho hf hr]
    refine Eq.trans ?_ (Scan.taking_bind s [_] _ _)
    apply Scan.taking_bind_congr
    intro given
    exact ih (.of_nothing rfl)

theorem Cluster.head {raw : RawText} {flags : List Argument} {tail : Tail} (h : Cluster raw flags tail) :
    ∃ byte rest, raw.bytes = byte :: rest ∧ byte ≠ 0x2D := by
  cases h with
  | flag hc hf | opens hc hv =>
    obtain ⟨byte, hb, _, hd⟩ := Argument.letter_bytes hc
    exact ⟨byte, [], hb, hd⟩
  | joined hc hv value =>
    obtain ⟨byte, hb, _, hd⟩ := Argument.letter_bytes hc
    exact ⟨byte, _, by rw [RawText.bytes_append, RawText.bytes_append, hb]; rfl, hd⟩
  | glued hc hv hne heq =>
    obtain ⟨byte, hb, _, hd⟩ := Argument.letter_bytes hc
    exact ⟨byte, _, by rw [RawText.bytes_append, hb]; rfl, hd⟩
  | cons hc hf h =>
    obtain ⟨byte, hb, _, hd⟩ := Argument.letter_bytes hc
    exact ⟨byte, _, by rw [RawText.bytes_append, hb]; rfl, hd⟩

namespace Scan

variable {s t : Scan} {raw value : RawText} {flags : List Argument} {tail : Tail} {a : Argument} {name : String}

theorem word_letters (ht : s.trailing = false) {byte : UInt8} {rest : List UInt8}
    (hw : raw.bytes = 0x2D :: byte :: rest) (hb : byte ≠ 0x2D) : s.word raw = s.letters (byte :: rest) := by
  rw [Scan.word, ht, hw]
  simp only [Bool.false_eq_true, ↓reduceIte]
  split
  · rename_i h
    cases h
    exact absurd rfl hb
  · rename_i h
    cases h
    exact absurd rfl hb
  · rename_i h
    cases h
    rfl
  · rename_i h
    exact absurd rfl (h byte rest)

theorem word_plain (ht : s.trailing = false) (hw : ¬ IsOption raw) : s.word raw = s.plain raw := by
  rw [Scan.word, ht]
  simp only [Bool.false_eq_true, ↓reduceIte]
  split
  · rename_i h
    exact absurd ⟨_, _, h⟩ hw
  · rename_i h
    exact absurd ⟨_, _, h⟩ hw
  · rename_i h
    exact absurd ⟨_, _, h⟩ hw
  · rfl

theorem word_long (ht : s.trailing = false) {option : List UInt8} (hw : raw.bytes = 0x2D :: 0x2D :: option)
    (hne : option ≠ []) : s.word raw = s.long ⟨option.takeWhile (· != 0x3D)⟩
      ((option.dropWhile (· != 0x3D)).tail?.map RawText.mk) := by
  obtain ⟨byte, option, rfl⟩ := List.exists_cons_of_ne_nil hne
  rw [Scan.word, ht, hw]
  simp only [Bool.false_eq_true, ↓reduceIte]
  congr 1
  cases List.dropWhile (· != 0x3D) (byte :: option) <;> rfl

theorem bne_of_notMem {bytes : List UInt8} (h : 0x3D ∉ bytes) : ∀ byte ∈ bytes, (byte != 0x3D) = true :=
  fun _ hb => bne_iff_ne.mpr (ne_of_mem_of_not_mem hb h)

theorem word_name (ht : s.trailing = false) (hw : raw.bytes = 0x2D :: 0x2D :: value.bytes) (hne : value.bytes ≠ [])
    (hn : 0x3D ∉ value.bytes) : s.word raw = s.long value none := by
  have hall := bne_of_notMem hn
  rw [word_long ht hw hne, List.takeWhile_eq_self_iff.mpr hall, List.dropWhile_eq_nil_iff.mpr hall]
  rfl

theorem word_joined (ht : s.trailing = false) {named : RawText}
    (hw : raw.bytes = 0x2D :: 0x2D :: (named.bytes ++ 0x3D :: value.bytes)) (hn : 0x3D ∉ named.bytes) :
    s.word raw = s.long named (some value) := by
  have hall := bne_of_notMem hn
  rw [word_long ht hw (by simp), List.takeWhile_append_of_pos hall, List.dropWhile_append_of_pos hall]
  simp

theorem lookup_name (h : a.name = some name) : (RawText.ofText name).text?.bind Argument.ofName? = some a := by
  rw [RawText.text?_eq_some_iff.mpr rfl, Option.bind_some, Argument.ofName?_eq_some_iff.mpr h]

theorem long_flag (h : a.name = some name) (hf : a.use = .flag) (hr : s.Ready) :
    s.long name none = s.taking [⟨a, none⟩] .nothing := by
  simp only [long, lookup_name h, hf, take_eq hr]

theorem long_opens (h : a.name = some name) (hv : a.TakesValue) (hr : s.Ready) :
    s.long name none = s.taking [] (.awaiting a) := by
  obtain ⟨kind, hv⟩ := hv
  simp only [long, lookup_name h, hv, await_eq hr]

theorem long_joined (h : a.name = some name) (hv : a.TakesValue) (hr : s.Ready) (value : RawText) :
    s.long name (some value) = s.taking [⟨a, some value⟩] .nothing := by
  obtain ⟨kind, hv⟩ := hv
  simp only [long, lookup_name h, hv, take_eq hr]

end Scan

theorem bytes_named (name : String) :
    (RawText.ofText ("--" ++ name)).bytes = 0x2D :: 0x2D :: (RawText.ofText name).bytes := by
  rw [RawText.ofText_append]
  rfl

theorem bytes_joined (name : String) (value : RawText) :
    (RawText.ofText ("--" ++ name) ++ RawText.ofText "=" ++ value).bytes =
      0x2D :: 0x2D :: ((RawText.ofText name).bytes ++ 0x3D :: value.bytes) := by
  rw [RawText.bytes_append, RawText.bytes_append, bytes_named, List.append_assoc]
  rfl

theorem OptionWord.word_eq {s : Scan} {raw : RawText} {flags : List Argument} {tail : Tail}
    (h : OptionWord raw flags tail) (ht : s.trailing = false) (hr : s.Ready) :
    s.word raw = s.taking (flags.map (Item.mk · none) ++ tail.items) tail.pending := by
  cases h with
  | @flag a name h hf =>
    obtain ⟨hne, hn⟩ := Argument.name_bytes h
    exact (Scan.word_name ht (bytes_named name) hne hn).trans (Scan.long_flag h hf hr)
  | @opens a name h hv =>
    obtain ⟨hne, hn⟩ := Argument.name_bytes h
    exact (Scan.word_name ht (bytes_named name) hne hn).trans (Scan.long_opens h hv hr)
  | @joined a name h hv value =>
    obtain ⟨_, hn⟩ := Argument.name_bytes h
    exact (Scan.word_joined ht (bytes_joined name value) hn).trans (Scan.long_joined h hv hr value)
  | @cluster raw _ _ h =>
    obtain ⟨byte, rest, hb, hd⟩ := h.head
    have hw : (RawText.ofText "-" ++ raw).bytes = 0x2D :: byte :: rest := by
      rw [RawText.bytes_append, hb]
      rfl
    rw [Scan.word_letters ht hw hd, ← hb, h.letters_eq hr]

namespace Scan

variable {s t : Scan} {raw : RawText} {a : Argument}

theorem plain_eq (hr : s.Ready) (raw : RawText) : s.plain raw = s.programPath raw := by
  rw [plain]
  split
  · rename_i h
    exact absurd h (hr _)
  · rfl

theorem word_awaited (ht : s.trailing = false) (hp : s.pending = .awaiting a) (hw : ¬ IsOption raw) :
    s.word raw = .ok { s with pending := .item ⟨a, some raw⟩ } := by
  rw [word_plain ht hw, plain, hp]
  rfl

/-- `s.Follows pending t`: the scan was ready in `s`, and goes on in `t` with this pending. -/
structure Follows (s : Scan) (pending : Pending) (t : Scan) : Prop where
  ready : s.Ready
  pending_eq : t.pending = pending
  trailing_eq : t.trailing = s.trailing

theorem ready_of_resolve (h : s.resolve = .ok t) : s.Ready := by
  intro a hp
  rw [resolve, hp] at h
  cases h

-- Each way to go on takes what is pending first, so it goes on from a scan that is ready.
theorem follows_of_resolve {f : Scan → Except EarlyExit Scan} {items : List Item} {pending : Pending}
    (h : (s.resolve >>= f) = .ok t) (heq : s.Ready → (s.resolve >>= f) = s.taking items pending) :
    s.Follows pending t := by
  obtain ⟨_, hresolve, _⟩ := except_bind_eq_ok_iff.mp h
  have hr := ready_of_resolve hresolve
  obtain ⟨given, _, rfl⟩ := taking_eq_ok_iff.mp (heq hr ▸ h)
  exact ⟨hr, rfl, rfl⟩

theorem take_follows {i : Item} (h : s.take i = .ok t) : s.Follows .nothing t :=
  follows_of_resolve h fun hr => take_eq hr i

theorem await_follows (h : s.await a = .ok t) : s.Follows (.awaiting a) t :=
  follows_of_resolve h fun hr => await_eq hr a

theorem programPath_follows (h : s.programPath raw = .ok t) : s.Follows (.item ⟨.program, some raw⟩) t := by
  have heq (hp : s.hasProgram = false) (hr : s.Ready) := programPath_eq hr hp raw
  rw [programPath] at h heq
  cases hp : s.hasProgram with
  | true =>
    rw [hp] at h
    cases h
  | false =>
    rw [hp] at h heq
    exact follows_of_resolve h (heq rfl)

theorem exit_ne_ok {reason : EarlyExit} : s.exit reason ≠ .ok t := by
  intro h
  obtain ⟨_, _, hthrow⟩ := except_bind_eq_ok_iff.mp h
  cases hthrow

theorem letters_follows {bytes : List UInt8} (hne : bytes ≠ []) (h : s.letters bytes = .ok t) :
    ∃ flags tail, Cluster ⟨bytes⟩ flags tail ∧ s.Follows tail.pending t := by
  induction bytes generalizing s with
  | nil => exact absurd rfl hne
  | cons byte rest ih =>
    unfold letters at h
    split at h
    · cases h
    · rename_i a ha
      obtain ⟨c, hc, hb⟩ := Argument.singleton_bytes ha
      have hsingle : RawText.mk [byte] = String.singleton c := by rw [← hb]
      have hcons (more : List UInt8) : RawText.mk (byte :: more) = String.singleton c ++ ⟨more⟩ := by
        rw [← hsingle]
        rfl
      split at h
      · exact absurd h exit_ne_ok
      · rename_i hf
        obtain ⟨m, hm, h⟩ := except_bind_eq_ok_iff.mp h
        have hfollows := take_follows hm
        cases rest with
        | nil =>
          cases h
          rw [hsingle]
          exact ⟨_, _, .flag hc hf, hfollows⟩
        | cons next rest =>
          obtain ⟨flags, tail, hl, hrest⟩ := ih nofun h
          rw [hcons]
          exact ⟨_, _, .cons hc hf hl, hfollows.ready, hrest.pending_eq, hrest.trailing_eq.trans hfollows.trailing_eq⟩
      · rename_i kind hv
        split at h
        · rw [hsingle]
          exact ⟨_, _, .opens hc ⟨kind, hv⟩, await_follows h⟩
        · rename_i value
          have hjoined : RawText.mk (byte :: 0x3D :: value) = String.singleton c ++ "=" ++ ⟨value⟩ := by
            rw [← hsingle]
            rfl
          rw [hjoined]
          exact ⟨_, _, .joined hc ⟨kind, hv⟩ ⟨value⟩, take_follows h⟩
        · rename_i hempty hequals
          rw [hcons]
          refine ⟨_, _, .glued hc ⟨kind, hv⟩ hempty ?_, take_follows h⟩
          intro hhead
          obtain ⟨value, hvalue⟩ := List.head?_eq_some_iff.mp hhead
          exact hequals value hvalue

theorem name_of_lookup {named : RawText} (h : named.text?.bind Argument.ofName? = some a) :
    ∃ name : String, a.name = some name ∧ named = name := by
  obtain ⟨name, htext, ha⟩ := Option.bind_eq_some_iff.mp h
  exact ⟨name, Argument.ofName?_eq_some_iff.mp ha, RawText.text?_eq_some_iff.mp htext⟩

theorem long_follows {named : RawText} (hw : raw.bytes = 0x2D :: 0x2D :: named.bytes) (h : s.long named none = .ok t) :
    ∃ flags tail, OptionWord raw flags tail ∧ s.Follows tail.pending t := by
  unfold long at h
  split at h
  · cases h
  · rename_i a ha
    obtain ⟨name, hname, rfl⟩ := name_of_lookup ha
    obtain rfl : raw = RawText.ofText ("--" ++ name) := congrArg RawText.mk (hw.trans (bytes_named name).symm)
    split at h
    · rename_i hattached
      cases hattached
    · rename_i kind hv _
      exact ⟨_, _, .opens hname ⟨kind, hv⟩, await_follows h⟩
    · cases h
    · rename_i hf _
      exact ⟨_, _, .flag hname hf, take_follows h⟩
    · exact absurd h exit_ne_ok

theorem long_joined_follows {named value : RawText}
    (hw : raw.bytes = 0x2D :: 0x2D :: (named.bytes ++ 0x3D :: value.bytes)) (h : s.long named (some value) = .ok t) :
    ∃ flags tail, OptionWord raw flags tail ∧ s.Follows tail.pending t := by
  unfold long at h
  split at h
  · cases h
  · rename_i a ha
    obtain ⟨name, hname, rfl⟩ := name_of_lookup ha
    obtain rfl : raw = RawText.ofText ("--" ++ name) ++ RawText.ofText "=" ++ value :=
      congrArg RawText.mk (hw.trans (bytes_joined name value).symm)
    split at h
    · rename_i hv hvalue
      cases hvalue
      exact ⟨_, _, .joined hname ⟨_, hv⟩ value, take_follows h⟩
    · rename_i hvalue
      cases hvalue
    · cases h
    · rename_i hvalue
      cases hvalue
    · rename_i hvalue
      cases hvalue

theorem exists_cut (option : List UInt8) : ∃ named : RawText, 0x3D ∉ named.bytes ∧
    (option = named.bytes ∨ ∃ value : RawText, option = named.bytes ++ 0x3D :: value.bytes) := by
  have hcut := List.takeWhile_append_dropWhile (p := (· != 0x3D)) (l := option)
  refine ⟨⟨option.takeWhile (· != 0x3D)⟩, ?_, ?_⟩
  · intro hmem
    exact absurd (List.mem_takeWhile_imp hmem) (by decide)
  · cases hd : option.dropWhile (· != 0x3D) with
    | nil =>
      rw [hd, List.append_nil] at hcut
      exact .inl hcut.symm
    | cons byte value =>
      have hb := List.head_dropWhile_not (· != 0x3D) (l := option) (by rw [hd]; exact nofun)
      simp only [hd, List.head_cons, bne_eq_false_iff_eq] at hb
      rw [hd, hb] at hcut
      exact .inr ⟨⟨value⟩, hcut.symm⟩

theorem word_follows (ht : s.trailing = false) (ho : IsOption raw) (hne : raw ≠ "--") (h : s.word raw = .ok t) :
    ∃ flags tail, OptionWord raw flags tail ∧ s.Follows tail.pending t := by
  obtain ⟨byte, option, hw⟩ := ho
  by_cases hb : byte = 0x2D
  · subst hb
    obtain ⟨named, hn, rfl | ⟨value, rfl⟩⟩ := exists_cut option
    · have hempty : named.bytes ≠ [] := by
        intro he
        rw [he] at hw
        exact hne (congrArg RawText.mk hw)
      exact long_follows hw (word_name ht hw hempty hn ▸ h)
    · exact long_joined_follows hw (word_joined ht hw hn ▸ h)
  · rw [word_letters ht hw hb] at h
    obtain ⟨flags, tail, hl, hf⟩ := letters_follows (List.cons_ne_nil byte option) h
    obtain rfl : raw = RawText.ofText "-" ++ ⟨byte :: option⟩ := congrArg RawText.mk hw
    exact ⟨flags, tail, .cluster hl, hf⟩

end Scan

end StackMachine
