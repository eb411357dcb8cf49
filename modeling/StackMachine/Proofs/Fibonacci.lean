import Mathlib.Data.Nat.Fib.Basic
import StackMachine.Program.Listing
import StackMachine.Proofs.Blocks
import StackMachine.Proofs.Words

namespace StackMachine

namespace Memory

theorem insert_of_gt {address lower : Address} (h : lower.magnitude < address.magnitude) (value old : Number)
    (rest : List (Address × Number)) :
    insert address value ((lower, old) :: rest) = (lower, old) :: insert address value rest := by
  rw [insert, if_neg (Nat.lt_asymm h), if_neg (Nat.ne_of_gt h)]

theorem insert_self (address : Address) (value old : Number) (rest : List (Address × Number)) :
    insert address value ((address, old) :: rest) = (address, value) :: rest := by
  simp [insert]

end Memory

namespace Demo

open Number State

def image (n a b : Number) : List Number :=
  let push := Opcode.push.number
  let load := Opcode.load.number
  let store := Opcode.store.number
  [push, n, push, ofNat 0, store,
    push, a, push, ofNat 1, store,
    push, b, push, ofNat 2, store,
    push, ofNat 1, load,
    push, ofNat 2, load,
    Opcode.dupSecond.number, Opcode.add.number, Opcode.dup.number, Opcode.out.number,
    push, ofNat 1, store,
    push, ofNat 2, store,
    push, ofNat 0, load,
    push, ofNat 1, Opcode.sub.number,
    Opcode.dup.number, push, ofNat 0, store,
    push, ofInt (-29), Opcode.jnz.number]

-- As a list of characters the listing is scanned within the kernel; as a string it would be decoded first.
set_option maxRecDepth 8000 in
theorem program_eq : program = Program.ofNumbers (image (ofNat 10) (ofNat 1) (ofNat 0)) := by
  rw [program, Program.ofListing, show listing = String.ofList _ from rfl, String.toList_ofList]
  decide +kernel

def seeded (n : Nat) (a b : Number) : Program :=
  ⟨((program.cells.set! 1 (.number (ofNat n))).set! 6 (.number a)).set! 11 (.number b)⟩

theorem seeded_eq (n : Nat) (a b : Number) : seeded n a b = Program.ofNumbers (image (ofNat n) a b) := by
  rw [seeded, program_eq]
  rfl

def nextPair (pair : Number × Number) : Number × Number := (pair.2 + pair.1, pair.1)

def pairAfter (x y : Number) (rounds : Nat) : Number × Number := nextPair^[rounds] (x, y)

def terms (x y : Number) (rounds : Nat) : List Number :=
  (List.range rounds).map fun i => (pairAfter x y (i + 1)).1

theorem pairAfter_succ (x y : Number) (rounds : Nat) :
    pairAfter x y (rounds + 1) = pairAfter (y + x) x rounds := Function.iterate_succ_apply ..

theorem terms_succ (x y : Number) (rounds : Nat) :
    terms x y (rounds + 1) = (y + x) :: terms (y + x) x rounds := by
  simp only [terms, List.range_succ_eq_map, List.map_cons, List.map_map, pairAfter_succ]
  rfl

section Registers

def place (i : Nat) : Address := ⟨(ofNat i).magnitude, .inl (roundMagnitude_le _ _)⟩

theorem ofNumber?_ofNat (i : Nat) : Address.ofNumber? (ofNat i) = some (place i) :=
  dif_pos (roundMagnitude_le _ _)

theorem place_zero_lt : (place 0).magnitude < (place 1).magnitude := by decide +kernel

theorem place_one_lt : (place 1).magnitude < (place 2).magnitude := by decide +kernel

def registers (counter x y : Number) : Memory where
  cells := [(place 0, counter), (place 1, x), (place 2, y)]
  ordered := by simp [place_zero_lt, place_one_lt, place_zero_lt.trans place_one_lt]

theorem registers_entries (counter x y : Number) : (registers counter x y).entries =
    [(ofNat 0, counter), (ofNat 1, x), (ofNat 2, y)] := rfl

variable (counter x y value : Number)

theorem set_counter : (registers counter x y).set (place 0) value = registers value x y := by
  simp only [registers, Memory.set, Memory.insert_self]

theorem set_last : (registers counter x y).set (place 1) value = registers counter value y := by
  simp only [registers, Memory.set, Memory.insert_of_gt place_zero_lt, Memory.insert_self]

theorem set_previous : (registers counter x y).set (place 2) value = registers counter x value := by
  simp only [registers, Memory.set, Memory.insert_of_gt (place_zero_lt.trans place_one_lt),
    Memory.insert_of_gt place_one_lt, Memory.insert_self]

theorem get_counter : (registers counter x y).get (place 0) = counter := by
  rw [← set_counter counter x y counter, Memory.get_set_self]

theorem get_last : (registers counter x y).get (place 1) = x := by
  rw [← set_last counter x y x, Memory.get_set_self]

theorem get_previous : (registers counter x y).get (place 2) = y := by
  rw [← set_previous counter x y y, Memory.get_set_self]

theorem set_all : ((Memory.empty.set (place 0) counter).set (place 1) x).set (place 2) y = registers counter x y := by
  have hnil (address : Address) (value : Number) : Memory.insert address value [] = [(address, value)] := rfl
  simp only [registers, Memory.empty, Memory.set, hnil, Memory.insert_of_gt place_zero_lt,
    Memory.insert_of_gt (place_zero_lt.trans place_one_lt), Memory.insert_of_gt place_one_lt]

end Registers

section Loop

variable {p : Program} {n a b : Number} (hp : p = Program.ofNumbers (image n a b))

include hp

theorem size_eq : p.size = 44 := hp ▸ rfl

theorem cell?_eq (i : Nat) : p.cell? i = (image n a b)[i]?.map Cell.number := by
  rw [hp, Program.cell?, Program.ofNumbers, Program.ofCells, List.getElem?_toArray, List.getElem?_map]

theorem setup_passes : Passes 9 [] (running p 0 [] Memory.empty) (running p 15 [] (registers n a b)) := by
  have hsize := size_eq hp
  have hcell := cell?_eq hp
  calc
    Passes 1 [] (running p 0 [] Memory.empty) (running p 2 [n] Memory.empty) :=
      passes_push (hcell _) (hcell _) (by omega)
    Passes 2 [] _ (running p 5 [] (Memory.empty.set (place 0) n)) :=
      passes_keep (ofNumber?_ofNat 0) rfl (hcell _) (hcell _) (hcell _) (by omega)
    Passes 1 [] _ (running p 7 [a] (Memory.empty.set (place 0) n)) :=
      passes_push (hcell _) (hcell _) (by omega)
    Passes 2 [] _ (running p 10 [] ((Memory.empty.set (place 0) n).set (place 1) a)) :=
      passes_keep (ofNumber?_ofNat 1) rfl (hcell _) (hcell _) (hcell _) (by omega)
    Passes 1 [] _ (running p 12 [b] ((Memory.empty.set (place 0) n).set (place 1) a)) :=
      passes_push (hcell _) (hcell _) (by omega)
    Passes 2 [] _ (running p 15 [] (registers n a b)) :=
      passes_keep (ofNumber?_ofNat 2) (set_all n a b) (hcell _) (hcell _) (hcell _) (by omega)

theorem term_passes (counter x y : Number) : Passes 12 [y + x] (running p 15 [] (registers counter x y))
    (running p 31 [] (registers counter (y + x) x)) := by
  have hsize := size_eq hp
  have hcell := cell?_eq hp
  calc
    Passes 2 [] (running p 15 [] (registers counter x y)) (running p 18 [x] (registers counter x y)) :=
      passes_recall (ofNumber?_ofNat 1) (get_last ..) (hcell _) (hcell _) (hcell _) (by omega)
    Passes 2 [] _ (running p 21 [y, x] (registers counter x y)) :=
      passes_recall (ofNumber?_ofNat 2) (get_previous ..) (hcell _) (hcell _) (hcell _) (by omega)
    Passes 1 [] _ (running p 22 [x, y, x] (registers counter x y)) :=
      passes_operate .dupSecond rfl [x, y] rfl (hcell _) (by omega)
    Passes 1 [] _ (running p 23 [y + x, x] (registers counter x y)) :=
      passes_operate .add rfl [y, x] rfl (hcell _) (by omega)
    Passes 1 [] _ (running p 24 [y + x, y + x, x] (registers counter x y)) :=
      passes_operate .dup rfl [y + x] rfl (hcell _) (by omega)
    Passes 1 [y + x] _ (running p 25 [y + x, x] (registers counter x y)) :=
      passes_out (hcell _) (by omega)
    Passes 2 [] _ (running p 28 [x] (registers counter (y + x) y)) :=
      passes_keep (ofNumber?_ofNat 1) (set_last ..) (hcell _) (hcell _) (hcell _) (by omega)
    Passes 2 [] _ (running p 31 [] (registers counter (y + x) x)) :=
      passes_keep (ofNumber?_ofNat 2) (set_previous ..) (hcell _) (hcell _) (hcell _) (by omega)

theorem countdown_passes (counter x y : Number) : Passes 8 [] (running p 31 [] (registers counter x y))
    (running p 43 [ofInt (-29), counter - ofNat 1] (registers (counter - ofNat 1) x y)) := by
  have hsize := size_eq hp
  have hcell := cell?_eq hp
  calc
    Passes 2 [] (running p 31 [] (registers counter x y)) (running p 34 [counter] (registers counter x y)) :=
      passes_recall (ofNumber?_ofNat 0) (get_counter ..) (hcell _) (hcell _) (hcell _) (by omega)
    Passes 1 [] _ (running p 36 [ofNat 1, counter] (registers counter x y)) :=
      passes_push (hcell _) (hcell _) (by omega)
    Passes 1 [] _ (running p 37 [counter - ofNat 1] (registers counter x y)) :=
      passes_operate .sub rfl [counter, ofNat 1] rfl (hcell _) (by omega)
    Passes 1 [] _ (running p 38 [counter - ofNat 1, counter - ofNat 1] (registers counter x y)) :=
      passes_operate .dup rfl [counter - ofNat 1] rfl (hcell _) (by omega)
    Passes 2 [] _ (running p 41 [counter - ofNat 1] (registers (counter - ofNat 1) x y)) :=
      passes_keep (ofNumber?_ofNat 0) (set_counter ..) (hcell _) (hcell _) (hcell _) (by omega)
    Passes 1 [] _ (running p 43 [ofInt (-29), counter - ofNat 1] (registers (counter - ofNat 1) x y)) :=
      passes_push (hcell _) (hcell _) (by omega)

theorem round_passes {k : Nat} (hk : k < 2 * binade) (x y : Number) :
    Passes 20 [y + x] (running p 15 [] (registers (ofNat (k + 1)) x y))
      (running p 43 [ofInt (-29), ofNat k] (registers (ofNat k) (y + x) x)) := by
  have h := (term_passes hp (ofNat (k + 1)) x y).trans (countdown_passes hp (ofNat (k + 1)) (y + x) x)
  rwa [ofNat_sub_one hk] at h

theorem jump_passes {k : Nat} (hk : k + 1 ≤ 2 * binade) (memory : Memory) :
    Passes 1 [] (running p 43 [ofInt (-29), ofNat (k + 1)] memory) (running p 15 [] memory) := by
  have hzero : (ofNat (k + 1)).isZero = false := isZero_of_isWhole (natCast_isWhole hk) (by omega)
  have htarget : (ofNat 44 + ofInt (-29)).IsWhole (44 + -29) :=
    add_isWhole (natCast_isWhole (by decide)) (ofInt_isWhole (by decide)) (by decide)
  have hindex : p.HasIndex (ofNat 44 + ofInt (-29)) 15 := by
    refine ⟨htarget, ?_, by decide⟩
    rw [size_eq hp]
    decide
  exact passes_branch .jnz rfl [ofNat (k + 1)] rfl (by simp [Condition.unary, hzero]) hindex (cell?_eq hp _)

theorem rounds_pass (k : Nat) (hk : k < 2 * binade) (x y : Number) :
    Passes (21 * k + 20) (terms x y (k + 1)) (running p 15 [] (registers (ofNat (k + 1)) x y))
      (running p 43 [ofInt (-29), ofNat 0]
        (registers (ofNat 0) (pairAfter x y (k + 1)).1 (pairAfter x y (k + 1)).2)) := by
  induction k generalizing x y with
  | zero => exact round_passes hp hk x y
  | succ k ih =>
    have hround := round_passes hp hk x y
    have hjump := jump_passes hp hk.le (registers (ofNat (k + 1)) (y + x) x)
    have h := (hround.trans hjump).trans (ih (by omega) (y + x) x)
    rw [terms_succ, pairAfter_succ, show 21 * (k + 1) + 20 = 20 + 1 + (21 * k + 20) by omega]
    exact h

theorem last_cycle (memory : Memory) :
    Action.cycle (running p 43 [ofInt (-29), ofNat 0] memory) = .ok .quiet ⟨p, 44, true, [], memory⟩ := by
  have hzero : (ofNat 0).isZero = true := by decide +kernel
  have hends : Opcode.jnz.instruction.Ends (running p 44 [ofInt (-29), ofNat 0] memory)
      (.ok .quiet (running p 44 [] memory)) := by
    have htest : (Condition.unary (!·.isZero)).test [ofNat 0] = false := by simp [Condition.unary, hzero]
    exact .branchNotTaken rfl rfl htest
  have hend : (running p 44 [] memory).settle = ⟨p, 44, true, [], memory⟩ := by
    have hpast : (running p 44 [] memory).pastEnd = true := decide_eq_true (size_eq hp).le
    rw [settle, hpast]
    rfl
  rw [← hend]
  exact cycle_of_ends (cell?_eq hp 43) hends

end Loop

theorem pairAfter_isWhole {rounds : Nat} (h : Nat.fib (rounds + 1) ≤ 2 * binade) :
    (pairAfter (ofNat 1) (ofNat 0) rounds).1.IsWhole (Nat.fib (rounds + 1)) ∧
      (pairAfter (ofNat 1) (ofNat 0) rounds).2.IsWhole (Nat.fib rounds) := by
  induction rounds with
  | zero => exact ⟨natCast_isWhole (by decide), natCast_isWhole (by decide)⟩
  | succ rounds ih =>
    obtain ⟨hx, hy⟩ := ih (Nat.fib_le_fib_succ.trans h)
    rw [Nat.fib_add_two] at h
    have hsum := add_isWhole hy hx (by rwa [← Nat.cast_add, Int.natAbs_natCast])
    rw [pairAfter, Function.iterate_succ_apply', Nat.fib_add_two, Nat.cast_add]
    exact ⟨hsum, hx⟩

theorem seeded_computes {σ : Type} [Sink σ] (output : σ) (journal : Journal) {n : Nat} (h0 : 1 ≤ n) (hn : n ≤ 2 ^ 53)
    (a b : Number) :
    (∃ memory : Memory, (Machine.start (seeded n a b) output journal).Computes
        ⟨none, ⟨seeded n a b, 44, true, [], memory⟩, Sink.accept output (terms a b n), 9 + 21 * n⟩ ∧
      memory.entries = [(ofNat 0, ofNat 0), (ofNat 1, (pairAfter a b n).1), (ofNat 2, (pairAfter a b n).2)]) ∧
    ∀ i, Nat.fib (i + 2) ≤ 2 ^ 53 → (pairAfter (ofNat 1) (ofNat 0) (i + 1)).1.IsWhole (Nat.fib (i + 2)) := by
  refine ⟨?_, fun i hi => (pairAfter_isWhole hi).1⟩
  obtain ⟨k, rfl⟩ := Nat.exists_eq_add_of_le' h0
  have hp := seeded_eq (k + 1) a b
  refine ⟨registers (ofNat 0) (pairAfter a b (k + 1)).1 (pairAfter a b (k + 1)).2, ?_, registers_entries ..⟩
  have hstart : (Machine.start (seeded (k + 1) a b) output journal).state =
      running (seeded (k + 1) a b) 0 [] Memory.empty := by
    rw [hp]
    rfl
  have hpasses := (setup_passes hp).trans (rounds_pass hp k hn a b)
  have hcount : 9 + 21 * (k + 1) = 0 + (9 + (21 * k + 20)) + 1 := by omega
  rw [hcount, ← List.append_nil (terms a b (k + 1))]
  exact Machine.computes_of_passes hpasses rfl (last_cycle hp _) rfl _ hstart

theorem seeded_computes_five : ∃ memory : Memory,
    (Machine.start (seeded 5 (ofNat 1) (ofNat 0)) ({} : Collector) .silent).Computes
        ⟨none, ⟨seeded 5 (ofNat 1) (ofNat 0), 44, true, [], memory⟩, ⟨[8, 5, 3, 2, 1].map ofNat⟩, 114⟩ ∧
      memory.entries = [(ofNat 0, ofNat 0), (ofNat 1, ofNat 8), (ofNat 2, ofNat 5)] := by
  have hpair : pairAfter (ofNat 1) (ofNat 0) 5 = (ofNat 8, ofNat 5) := by decide +kernel
  have hterms : Sink.accept ({} : Collector) (terms (ofNat 1) (ofNat 0) 5) = ⟨[8, 5, 3, 2, 1].map ofNat⟩ := by
    decide +kernel
  obtain ⟨⟨memory, hcomputes, hentries⟩, _⟩ :=
    seeded_computes ({} : Collector) .silent (show 1 ≤ 5 by decide) (by decide) (ofNat 1) (ofNat 0)
  rw [hterms] at hcomputes
  rw [hpair] at hentries
  exact ⟨memory, hcomputes, hentries⟩

end Demo

end StackMachine
