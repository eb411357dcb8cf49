import StackMachine.Machine.Stack

/-!
Sparse memory. Addresses are numbers that are not below zero; the two zeros are one address, and so are
all NaN. A cell that was never stored to reads as zero.
-/

namespace StackMachine

/-- A place in memory: a magnitude up to infinity, or the one that stands for every NaN. -/
structure Address where
  magnitude : Nat
  legal : magnitude ≤ Number.infinityMagnitude ∨ magnitude = Number.nanMagnitude
deriving DecidableEq

namespace Address

def ofNumber? (x : Number) : Option Address :=
  if h : x.magnitude ≤ Number.infinityMagnitude then
    if x.negative && !x.isZero then none else some ⟨x.magnitude, .inl h⟩
  else some ⟨Number.nanMagnitude, .inr rfl⟩

def toNumber (a : Address) : Number where
  negative := false
  magnitude := a.magnitude
  magnitude_lt := by
    have := a.legal
    have := Number.infinityMagnitude_lt
    have := Number.nanMagnitude_lt
    omega

end Address

/-- The cells that were stored to, in the order of their addresses: NaN comes last, after infinity. -/
structure Memory where
  cells : List (Address × Number)
  ordered : cells.Pairwise fun a b => a.1.magnitude < b.1.magnitude
deriving DecidableEq

namespace Memory

def insert (address : Address) (value : Number) : List (Address × Number) → List (Address × Number)
  | [] => [(address, value)]
  | cell :: rest =>
    if address.magnitude < cell.1.magnitude then (address, value) :: cell :: rest
    else if address.magnitude = cell.1.magnitude then (address, value) :: rest
    else cell :: insert address value rest

theorem mem_insert {address : Address} {value : Number} {cells : List (Address × Number)}
    {c : Address × Number} (h : c ∈ insert address value cells) : c = (address, value) ∨ c ∈ cells := by
  induction cells with
  | nil => simpa [insert] using h
  | cons cell rest ih =>
    simp only [insert] at h
    split at h
    · simpa using h
    · split at h
      · rcases List.mem_cons.1 h with h | h
        · exact .inl h
        · exact .inr (List.mem_cons_of_mem _ h)
      · rcases List.mem_cons.1 h with h | h
        · exact .inr (h ▸ List.mem_cons_self)
        · rcases ih h with h | h
          · exact .inl h
          · exact .inr (List.mem_cons_of_mem _ h)

theorem insert_ordered (address : Address) (value : Number) {cells : List (Address × Number)}
    (h : cells.Pairwise fun a b => a.1.magnitude < b.1.magnitude) :
    (insert address value cells).Pairwise fun a b => a.1.magnitude < b.1.magnitude := by
  induction cells with
  | nil => simp [insert]
  | cons cell rest ih =>
    have hc := List.pairwise_cons.1 h
    simp only [insert]
    split
    · rename_i hlt
      refine List.pairwise_cons.2 ⟨fun c hm => ?_, h⟩
      rcases List.mem_cons.1 hm with hm | hm
      · exact hm ▸ hlt
      · exact Nat.lt_trans hlt (hc.1 c hm)
    · split
      · rename_i heq
        exact List.pairwise_cons.2 ⟨fun c hm => heq ▸ hc.1 c hm, hc.2⟩
      · refine List.pairwise_cons.2 ⟨fun c hm => ?_, ih hc.2⟩
        rcases mem_insert hm with hm | hm
        · rw [hm]
          show cell.1.magnitude < address.magnitude
          omega
        · exact hc.1 c hm

theorem lookup_insert_self (address : Address) (value : Number) (cells : List (Address × Number)) :
    (insert address value cells).lookup address = some value := by
  induction cells with
  | nil => simp [insert]
  | cons cell rest ih =>
    obtain ⟨b, w⟩ := cell
    simp only [insert]
    split
    · simp
    · split
      · simp
      · rename_i h
        have hne : (address == b) = false := by
          simp only [beq_eq_false_iff_ne]
          rintro rfl
          exact h rfl
        simp [List.lookup_cons, hne, ih]

theorem lookup_insert_of_ne {address other : Address} (h : other ≠ address) (value : Number)
    (cells : List (Address × Number)) :
    (insert address value cells).lookup other = cells.lookup other := by
  have ho : (other == address) = false := by simpa using h
  induction cells with
  | nil => simp [insert, List.lookup_cons, ho]
  | cons cell rest ih =>
    obtain ⟨b, w⟩ := cell
    simp only [insert]
    split
    · simp [List.lookup_cons, ho]
    · split
      · rename_i hb
        have hob : (other == b) = false := by
          have : address = b := by
            cases address
            cases b
            simpa using hb
          rw [← this]
          exact ho
        simp [List.lookup_cons, ho, hob]
      · simp [List.lookup_cons, ih]

def empty : Memory := ⟨[], .nil⟩

def size (memory : Memory) : Nat := memory.cells.length

def isEmpty (memory : Memory) : Bool := memory.cells.isEmpty

def get (memory : Memory) (address : Address) : Number :=
  (memory.cells.lookup address).getD Number.zero

def set (memory : Memory) (address : Address) (value : Number) : Memory :=
  ⟨insert address value memory.cells, insert_ordered address value memory.ordered⟩

theorem get_set_self (memory : Memory) (address : Address) (value : Number) :
    (memory.set address value).get address = value := by
  simp [get, set, lookup_insert_self]

theorem get_set_of_ne (memory : Memory) {address other : Address} (h : other ≠ address)
    (value : Number) : (memory.set address value).get other = memory.get other := by
  simp [get, set, lookup_insert_of_ne h]

def load (memory : Memory) (address : Number) : Except Fault Number :=
  match Address.ofNumber? address with
  | some a => .ok (memory.get a)
  | none => .error (.illegalAddress address)

def store (memory : Memory) (address value : Number) : Except Fault Memory :=
  match Address.ofNumber? address with
  | some a => .ok (memory.set a value)
  | none => .error (.illegalAddress address)

def read (memory : Memory) (address : Number) : Number :=
  match memory.load address with
  | .ok value => value
  | .error _ => Number.zero

def entries (memory : Memory) : List (Number × Number) :=
  memory.cells.map fun (address, value) => (address.toNumber, value)

end Memory

end StackMachine
