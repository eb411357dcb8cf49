import Mathlib.Data.Set.Card
import StackMachine.Machine.State
import StackMachine.Proofs.Outcomes
import StackMachine.Proofs.Values

namespace StackMachine

namespace Number

theorem less_zero_iff_value (x : Number) : x.less zero ↔ (x.isFinite ∧ x.units < 0) ∨ x = infinity true := by
  by_cases hf : x.isFinite
  · have hne : x ≠ infinity true := by
      rintro rfl
      exact absurd hf (by decide)
    rw [less_iff_units hf rfl, or_iff_left hne, and_iff_right hf]
    rfl
  · rw [or_iff_right (fun h => hf h.1), less_zero_iff]
    obtain ⟨negative, magnitude, h⟩ := x
    have hle : infinityMagnitude ≤ magnitude := by simpa [isFinite] using hf
    have hpos : 0 < infinityMagnitude := by decide
    cases negative with
    | false => simp [key, infinity]
    | true =>
      simp only [isNaN, key, infinity, decide_eq_false_iff_not, mk.injEq, true_and, if_true]
      omega

inductive Precedes : Number → Number → Prop
  | finite {a b : Number} (ha : a.isFinite) (hb : b.isFinite) (h : a.units < b.units) : Precedes a b
  | infinity {a : Number} (ha : a.isFinite) : Precedes a (infinity false)
  | nan {a b : Number} (ha : a.isNaN = false) (hb : b.isNaN) : Precedes a b

def addressClass (a : Number) : Set Number := {b | b.SameAddress a}

end Number

namespace Address

theorem ofNumber?_toNumber (p : Address) : ofNumber? p.toNumber = some p := by
  obtain ⟨magnitude, h | rfl⟩ := p
  · simp [ofNumber?, toNumber, h]
  · rfl

theorem sameAddress_iff {a : Number} {p : Address} (h : ofNumber? a = some p) (b : Number) :
    b.SameAddress a ↔ ofNumber? b = some p := by
  have ha := not_less_of_ofNumber? h
  by_cases hb : b.less Number.zero
  · rw [(ofNumber?_eq_none_iff b).mpr hb]
    exact iff_of_false (Number.not_sameAddress_of_less hb ha) nofun
  · rw [← ofNumber?_eq_iff hb ha, h]

theorem addressClass_eq {a : Number} {p : Address} (h : ofNumber? a = some p) :
    a.addressClass = {b | ofNumber? b = some p} :=
  Set.ext (sameAddress_iff h)

theorem addressClass_toNumber_injective : Function.Injective fun p : Address => p.toNumber.addressClass := by
  intro p q h
  have hp : p.toNumber ∈ q.toNumber.addressClass := by
    rw [← show p.toNumber.addressClass = q.toNumber.addressClass from h, addressClass_eq p.ofNumber?_toNumber]
    exact p.ofNumber?_toNumber
  rw [addressClass_eq q.ofNumber?_toNumber, Set.mem_ofPred_eq, p.ofNumber?_toNumber] at hp
  exact Option.some.inj hp

theorem precedes_of_lt {p q : Address} (h : p.magnitude < q.magnitude) : p.toNumber.Precedes q.toNumber := by
  have hp := p.legal
  have hq := q.legal
  have hinf : Number.infinityMagnitude < Number.nanMagnitude := by decide
  rcases Nat.lt_trichotomy q.magnitude Number.infinityMagnitude with hlt | heq | hgt
  · have hlt' : p.magnitude < Number.infinityMagnitude := by omega
    have hu : (p.toNumber.absUnits : Int) < q.toNumber.absUnits :=
      Int.ofNat_lt.mpr (Number.magnitudeUnits_strictMono h)
    exact .finite (decide_eq_true hlt') (decide_eq_true hlt) hu
  · obtain ⟨magnitude, hl⟩ := q
    obtain rfl : magnitude = Number.infinityMagnitude := heq
    exact .infinity (decide_eq_true h)
  · have hle : ¬ Number.infinityMagnitude < p.magnitude := by omega
    exact .nan (decide_eq_false hle) (decide_eq_true hgt)

end Address

namespace Memory

def put (memory : Memory) (write : Number × Number) : Memory :=
  match memory.store write.1 write.2 with
  | .ok next => next
  | .error _ => memory

def afterStores (writes : List (Number × Number)) : Memory := writes.foldl put empty

def lastStore? (writes : List (Number × Number)) (a : Number) : Option Number :=
  (writes.reverse.find? fun w => ¬ w.1.less Number.zero ∧ a.SameAddress w.1).map Prod.snd

theorem put_of_some {write : Number × Number} {p : Address} (h : Address.ofNumber? write.1 = some p)
    (memory : Memory) : memory.put write = memory.set p write.2 := by
  simp only [put, store, h]

theorem put_of_none {write : Number × Number} (h : Address.ofNumber? write.1 = none) (memory : Memory) :
    memory.put write = memory := by
  simp only [put, store, h]

theorem afterStores_concat (writes : List (Number × Number)) (w : Number × Number) :
    afterStores (writes ++ [w]) = (afterStores writes).put w := List.foldl_concat _ _ _ _

theorem lookup_put (memory : Memory) (write : Number × Number) (p : Address) :
    (memory.put write).cells.lookup p =
      if Address.ofNumber? write.1 = some p then some write.2 else memory.cells.lookup p := by
  cases h : Address.ofNumber? write.1 with
  | none => rw [put_of_none h, if_neg nofun]
  | some q =>
    rw [put_of_some h, set]
    by_cases hq : p = q
    · rw [hq, if_pos rfl, lookup_insert_self]
    · rw [if_neg (fun hs => hq (Option.some.inj hs).symm), lookup_insert_of_ne hq]

theorem lookup_afterStores (writes : List (Number × Number)) (p : Address) :
    (afterStores writes).cells.lookup p =
      (writes.reverse.find? fun w => Address.ofNumber? w.1 = some p).map Prod.snd := by
  induction writes using List.reverseRecOn with
  | nil => rfl
  | append_singleton writes w ih =>
    rw [afterStores_concat, lookup_put, List.reverse_concat, List.find?_cons]
    split
    · rename_i h
      simp [h]
    · rename_i h
      simpa [h] using ih

theorem lastStore?_eq_lookup (writes : List (Number × Number)) {a : Number} {p : Address}
    (h : Address.ofNumber? a = some p) : lastStore? writes a = (afterStores writes).cells.lookup p := by
  rw [lookup_afterStores, lastStore?]
  congr 2
  funext w
  apply decide_eq_decide.mpr
  cases hw : Address.ofNumber? w.1 with
  | none =>
    have hl := (Address.ofNumber?_eq_none_iff w.1).mp hw
    exact iff_of_false (fun hn => hn.1 hl) nofun
  | some q =>
    rw [Address.sameAddress_iff hw, h, and_iff_right (Address.not_less_of_ofNumber? hw)]
    exact eq_comm

theorem lastStore?_of_less (writes : List (Number × Number)) {a : Number} (h : a.less Number.zero) :
    lastStore? writes a = none := by
  rw [lastStore?, Option.map_eq_none_iff, List.find?_eq_none]
  intro w _ hw
  obtain ⟨hl, hs⟩ := of_decide_eq_true hw
  exact Number.not_sameAddress_of_less h hl hs

theorem mem_keys_iff (writes : List (Number × Number)) (p : Address) :
    p ∈ (afterStores writes).cells.map Prod.fst ↔ ∃ w ∈ writes, Address.ofNumber? w.1 = some p := by
  have h : ((afterStores writes).cells.lookup p).isSome ↔ ∃ w ∈ writes, Address.ofNumber? w.1 = some p := by
    simp [lookup_afterStores]
  rw [← h, List.lookup_isSome_iff, List.mem_map]
  constructor
  · rintro ⟨c, hc, rfl⟩
    exact ⟨c, hc, beq_self_eq_true c.1⟩
  · rintro ⟨c, hc, hp⟩
    exact ⟨c, hc, (eq_of_beq hp).symm⟩

theorem filter_key {cells : List (Address × Number)} (h : cells.Pairwise fun a b => a.1.magnitude < b.1.magnitude)
    (p : Address) : (cells.filter fun c => c.1 = p).map Prod.snd = (cells.lookup p).toList := by
  induction cells with
  | nil => rfl
  | cons c cells ih =>
    obtain ⟨b, value⟩ := c
    obtain ⟨hc, hs⟩ := List.pairwise_cons.mp h
    by_cases hp : b = p
    · have hrest : cells.filter (fun d => d.1 = p) = [] := by
        rw [List.filter_eq_nil_iff]
        intro d hd hdp
        have hlt := hc d hd
        rw [hp, of_decide_eq_true hdp] at hlt
        exact Nat.lt_irrefl _ hlt
      simp [hp, hrest]
    · have hne : (p == b) = false := by simpa using fun he => hp he.symm
      simpa [List.lookup_cons, hp, hne] using ih hs

theorem keys_nodup (memory : Memory) : (memory.cells.map Prod.fst).Nodup := by
  apply List.pairwise_map.mpr
  refine memory.ordered.imp ?_
  intro c d h he
  rw [he] at h
  exact Nat.lt_irrefl _ h

/-- `Holds memory writes`: the memory shows the stores as a function on address classes would. -/
structure Holds (memory : Memory) (writes : List (Number × Number)) : Prop where
  store_legal : ∀ a, ¬ a.less Number.zero → ∀ value, ∃ next, memory.store a value = .ok next
  store_illegal : ∀ a, a.less Number.zero → ∀ value, memory.store a value = .error (.illegalAddress a)
  load_legal : ∀ a, ¬ a.less Number.zero → memory.load a = .ok ((lastStore? writes a).getD Number.zero)
  load_illegal : ∀ a, a.less Number.zero → memory.load a = .error (.illegalAddress a)
  size : memory.size = Set.ncard (Number.addressClass '' {a | ¬ a.less Number.zero ∧ ∃ value, (a, value) ∈ writes})
  once : ∀ a, (memory.entries.filter fun e => a.SameAddress e.1).map Prod.snd = (lastStore? writes a).toList
  order : memory.entries.Pairwise fun e f => e.1.Precedes f.1

theorem size_afterStores (writes : List (Number × Number)) : (afterStores writes).size =
    Set.ncard (Number.addressClass '' {a | ¬ a.less Number.zero ∧ ∃ value, (a, value) ∈ writes}) := by
  have hset : Number.addressClass '' {a | ¬ a.less Number.zero ∧ ∃ value, (a, value) ∈ writes} =
      (fun p : Address => p.toNumber.addressClass) '' ((afterStores writes).cells.map Prod.fst).toFinset := by
    ext c
    simp only [Set.mem_image, List.coe_toFinset, Set.mem_ofPred_eq, mem_keys_iff]
    constructor
    · rintro ⟨a, ⟨ha, value, hw⟩, rfl⟩
      obtain ⟨p, hp⟩ := Address.exists_ofNumber? ha
      exact ⟨p, ⟨(a, value), hw, hp⟩, by
        rw [Address.addressClass_eq hp, Address.addressClass_eq p.ofNumber?_toNumber]⟩
    · rintro ⟨p, ⟨w, hw, hp⟩, rfl⟩
      exact ⟨w.1, ⟨Address.not_less_of_ofNumber? hp, w.2, hw⟩, by
        rw [Address.addressClass_eq hp, Address.addressClass_eq p.ofNumber?_toNumber]⟩
  rw [hset, Set.ncard_image_of_injective _ Address.addressClass_toNumber_injective, Set.ncard_coe_finset,
    List.toFinset_card_of_nodup (afterStores writes).keys_nodup, List.length_map]
  rfl

theorem entries_once (writes : List (Number × Number)) (a : Number) :
    ((afterStores writes).entries.filter fun e => a.SameAddress e.1).map Prod.snd =
      (lastStore? writes a).toList := by
  have hentries : ((afterStores writes).entries.filter fun e => a.SameAddress e.1).map Prod.snd =
      ((afterStores writes).cells.filter fun c => a.SameAddress c.1.toNumber).map Prod.snd := by
    rw [entries, List.filter_map, List.map_map]
    rfl
  rw [hentries]
  by_cases ha : a.less Number.zero
  · have hnone : (afterStores writes).cells.filter (fun c => a.SameAddress c.1.toNumber) = [] := by
      rw [List.filter_eq_nil_iff]
      intro c _ hs
      have hc := Address.not_less_of_ofNumber? c.1.ofNumber?_toNumber
      exact Number.not_sameAddress_of_less ha hc (of_decide_eq_true hs)
    rw [hnone, lastStore?_of_less writes ha]
    rfl
  · obtain ⟨p, hp⟩ := Address.exists_ofNumber? ha
    have hkey : (fun c : Address × Number => decide (a.SameAddress c.1.toNumber)) = fun c => decide (c.1 = p) := by
      funext c
      rw [decide_eq_decide, Address.sameAddress_iff c.1.ofNumber?_toNumber, hp, Option.some.injEq, eq_comm]
    rw [hkey, filter_key (afterStores writes).ordered, lastStore?_eq_lookup writes hp]

theorem entries_order (memory : Memory) : memory.entries.Pairwise fun e f => e.1.Precedes f.1 :=
  List.pairwise_map.mpr (memory.ordered.imp Address.precedes_of_lt)

theorem stores_refine (writes : List (Number × Number)) : (afterStores writes).Holds writes ∧
    (∀ x : Number, x.less Number.zero ↔ (x.isFinite ∧ x.units < 0) ∨ x = Number.infinity true) ∧
    ∀ (s : State) (a value : Number), a.less Number.zero →
      Action.load a s = .error (.illegalAddress a) s ∧ Action.store a value s = .error (.illegalAddress a) s := by
  refine ⟨⟨?_, ?_, ?_, ?_, size_afterStores writes, entries_once writes, entries_order _⟩,
    Number.less_zero_iff_value, ?_⟩
  · intro a ha value
    obtain ⟨next, hn⟩ := exists_stores ha (afterStores writes) value
    exact ⟨next, hn.store⟩
  · intro a ha value
    exact store_of_less ha _ value
  · intro a ha
    obtain ⟨p, hp⟩ := Address.exists_ofNumber? ha
    rw [lastStore?_eq_lookup writes hp, load, hp]
    rfl
  · intro a ha
    exact load_of_less ha _
  · intro s a value ha
    exact ⟨Action.load_illegal ha, Action.store_illegal ha value⟩

end Memory

end StackMachine
