import StackMachine.Machine.Memory
import StackMachine.Number.Arithmetic
import StackMachine.Program.Basic

namespace StackMachine

namespace Number

theorem magnitudeUnits_eq_zero_iff (n : Nat) : magnitudeUnits n = 0 ↔ n = 0 := by
  constructor
  · intro h
    have hp := Nat.two_pow_pos (n / binade - 1)
    simp only [magnitudeUnits, Nat.shiftLeft_eq, Nat.mul_eq_zero] at h
    have hs : n - (n / binade - 1) * binade = 0 := by omega
    have hd := Nat.div_add_mod n binade
    simp only [binade] at hs hd
    omega
  · rintro rfl
    rfl

theorem unitsPerOne_pos : 0 < unitsPerOne := by decide

def IsWhole (x : Number) (n : Int) : Prop := x.isFinite ∧ x.units = n * unitsPerOne

theorem isWhole_natCast_iff (x : Number) (i : Nat) :
    x.IsWhole i ↔ x.isFinite ∧ x.absUnits = i * unitsPerOne ∧ (x.negative = false ∨ x.magnitude = 0) := by
  have hz : x.absUnits = 0 ↔ x.magnitude = 0 := magnitudeUnits_eq_zero_iff x.magnitude
  apply and_congr_right
  intro _
  rw [units, ← Int.natCast_mul]
  cases x.negative with
  | false =>
    simp only [Bool.false_eq_true, ↓reduceIte, true_or, and_true]
    exact Int.ofNat_inj
  | true =>
    rw [← hz]
    simp only [↓reduceIte, Bool.true_eq_false, false_or]
    omega

theorem toIndex?_eq_some_iff (x : Number) (i : Nat) :
    x.toIndex? = some i ↔ x.IsWhole i ∧ i < indexCount := by
  rw [isWhole_natCast_iff]
  simp only [toIndex?, isIntegral, isZero, Bool.and_eq_true, Bool.or_eq_true, Bool.not_eq_true',
    beq_iff_eq, decide_eq_true_eq, Option.ite_none_right_eq_some, Option.some.injEq]
  constructor
  · rintro ⟨⟨⟨⟨hf, hm⟩, hs⟩, hi⟩, rfl⟩
    exact ⟨⟨hf, (Nat.div_mul_cancel (Nat.dvd_of_mod_eq_zero hm)).symm, hs⟩, hi⟩
  · rintro ⟨⟨hf, hu, hs⟩, hi⟩
    have hd : x.absUnits / unitsPerOne = i := by rw [hu, Nat.mul_div_cancel _ unitsPerOne_pos]
    have hm : x.absUnits % unitsPerOne = 0 := by rw [hu, Nat.mul_mod_left]
    rw [hd]
    exact ⟨⟨⟨⟨hf, hm⟩, hs⟩, hi⟩, rfl⟩

theorem less_zero_iff (x : Number) : x.less zero ↔ x.isNaN = false ∧ x.key < 0 := by
  rw [less_iff]
  exact and_congr_right fun _ => and_iff_right rfl

theorem isZero_iff_equal_zero (x : Number) : x.isZero ↔ x.equal zero := by
  have hk : x.key = 0 ↔ x.magnitude = 0 := by
    rw [key]
    split <;> omega
  have hinf : 0 < infinityMagnitude := by decide
  have hz : zero.key = 0 := rfl
  rw [equal_iff, isZero, beq_iff_eq, hz, hk, isNaN, decide_eq_false_iff_not]
  constructor
  · intro h
    exact ⟨by omega, rfl, h⟩
  · exact fun h => h.2.2

def SameAddress (a b : Number) : Prop := a.equal b ∨ (a.isNaN ∧ b.isNaN)

instance (a b : Number) : Decidable (a.SameAddress b) :=
  inferInstanceAs (Decidable (a.equal b ∨ (a.isNaN ∧ b.isNaN)))

theorem not_sameAddress_of_less {a b : Number} (ha : a.less zero) (hb : ¬ b.less zero) : ¬ a.SameAddress b := by
  rw [less_zero_iff] at ha hb
  rw [SameAddress, equal_iff]
  rintro (⟨_, hn, hk⟩ | ⟨hn, _⟩)
  · exact hb ⟨hn, hk ▸ ha.2⟩
  · rw [ha.1] at hn
    cases hn

end Number

namespace Program

/-- The number is the index of a cell: a whole number below the size, and in 64 bits as every index is. -/
def HasIndex (p : Program) (x : Number) (i : Nat) : Prop :=
  x.IsWhole i ∧ i < p.size ∧ i < Number.indexCount

theorem filter_toIndex?_eq_some_iff (p : Program) (x : Number) (i : Nat) :
    x.toIndex?.filter (· < p.size) = some i ↔ p.HasIndex x i := by
  rw [Option.filter_eq_some_iff, Number.toIndex?_eq_some_iff, decide_eq_true_eq, and_assoc]
  exact and_congr_right fun _ => and_comm

end Program

namespace Address

theorem ofNumber?_eq_none_iff (x : Number) : ofNumber? x = none ↔ x.less Number.zero := by
  rw [Number.less_zero_iff, Number.isNaN, decide_eq_false_iff_not, Nat.not_lt, Number.key, ofNumber?]
  split
  · rename_i h
    cases x.negative with
    | false => simp
    | true =>
      by_cases hz : x.magnitude = 0
      · simp [Number.isZero, hz]
      · have hpos := Nat.pos_of_ne_zero hz
        simp [Number.isZero, hz, h, hpos]
  · rename_i h
    exact iff_of_false (by simp) (fun hx => h hx.1)

theorem exists_ofNumber? {x : Number} (h : ¬ x.less Number.zero) : ∃ a, ofNumber? x = some a :=
  Option.ne_none_iff_exists'.mp fun hn => h ((ofNumber?_eq_none_iff x).mp hn)

theorem not_less_of_ofNumber? {a : Number} {p : Address} (h : ofNumber? a = some p) : ¬ a.less Number.zero := by
  rw [← ofNumber?_eq_none_iff, h]
  exact nofun

theorem ofNumber?_of_isNaN {x : Number} (h : x.isNaN) :
    ofNumber? x = some ⟨Number.nanMagnitude, .inr rfl⟩ := by
  rw [Number.isNaN, decide_eq_true_eq] at h
  rw [ofNumber?, dif_neg (by omega)]

theorem ofNumber?_of_not_isNaN {x : Number} (hn : x.isNaN = false) (hx : ¬ x.less Number.zero) :
    ∃ h, ofNumber? x = some ⟨x.magnitude, h⟩ ∧ x.key = x.magnitude := by
  rw [Number.isNaN, decide_eq_false_iff_not, Nat.not_lt] at hn
  rw [← ofNumber?_eq_none_iff, ofNumber?, dif_pos hn] at hx
  rw [ofNumber?, dif_pos hn]
  refine ⟨.inl hn, ?_⟩
  cases h : x.negative <;> simp_all [Number.key, Number.isZero]

theorem ofNumber?_eq_iff {a b : Number} (ha : ¬ a.less Number.zero) (hb : ¬ b.less Number.zero) :
    ofNumber? a = ofNumber? b ↔ a.SameAddress b := by
  have hlt : Number.infinityMagnitude < Number.nanMagnitude := by decide
  rw [Number.SameAddress, Number.equal_iff]
  cases hna : a.isNaN <;> cases hnb : b.isNaN
  · obtain ⟨_, hla, hka⟩ := ofNumber?_of_not_isNaN hna ha
    obtain ⟨_, hlb, hkb⟩ := ofNumber?_of_not_isNaN hnb hb
    rw [hla, hlb, hka, hkb, Option.some.injEq, Address.mk.injEq, Int.ofNat_inj]
    simp
  · obtain ⟨_, hla, _⟩ := ofNumber?_of_not_isNaN hna ha
    rw [Number.isNaN, decide_eq_false_iff_not] at hna
    simp [hla, ofNumber?_of_isNaN hnb]
    omega
  · obtain ⟨_, hlb, _⟩ := ofNumber?_of_not_isNaN hnb hb
    rw [Number.isNaN, decide_eq_false_iff_not] at hnb
    simp [hlb, ofNumber?_of_isNaN hna]
    omega
  · simp [ofNumber?_of_isNaN hna, ofNumber?_of_isNaN hnb]

end Address

namespace Memory

theorem load_of_less {a : Number} (h : a.less Number.zero) (memory : Memory) :
    memory.load a = .error (.illegalAddress a) := by
  rw [load, (Address.ofNumber?_eq_none_iff a).mpr h]

theorem store_of_less {a : Number} (h : a.less Number.zero) (memory : Memory) (value : Number) :
    memory.store a value = .error (.illegalAddress a) := by
  rw [store, (Address.ofNumber?_eq_none_iff a).mpr h]

theorem load_of_not_less {a : Number} (h : ¬ a.less Number.zero) (memory : Memory) :
    memory.load a = .ok (memory.read a) := by
  obtain ⟨p, hp⟩ := Address.exists_ofNumber? h
  simp only [read, load, hp]

structure Stores (memory : Memory) (a value : Number) (next : Memory) : Prop where
  store : memory.store a value = .ok next
  load : ∀ b : Number, next.load b = if b.SameAddress a then .ok value else memory.load b

theorem stores_set {a : Number} {p : Address} (h : Address.ofNumber? a = some p) (memory : Memory) (value : Number) :
    memory.Stores a value (memory.set p value) := by
  have ha := Address.not_less_of_ofNumber? h
  refine ⟨by rw [store, h], ?_⟩
  intro b
  by_cases hb : b.less Number.zero
  · rw [if_neg (Number.not_sameAddress_of_less hb ha), load_of_less hb, load_of_less hb]
  · obtain ⟨q, hq⟩ := Address.exists_ofNumber? hb
    have he : q = p ↔ b.SameAddress a := by
      rw [← Address.ofNumber?_eq_iff hb ha, h, hq, Option.some.injEq]
    rw [load, load, hq]
    by_cases hs : b.SameAddress a
    · simp only [if_pos hs, he.mpr hs, get_set_self]
    · simp only [if_neg hs, get_set_of_ne memory (fun hqp => hs (he.mp hqp)) value]

theorem exists_stores {a : Number} (h : ¬ a.less Number.zero) (memory : Memory) (value : Number) :
    ∃ next, memory.Stores a value next := by
  obtain ⟨p, hp⟩ := Address.exists_ofNumber? h
  exact ⟨_, stores_set hp memory value⟩

end Memory

end StackMachine
