import StackMachine.Proofs.Lockstep

/-!
The cells that a run fetches are all that it knows of its program. Apart from fetching, a machine asks only how many
cells there are, so two programs of one size cannot be told apart by a run that fetches none of the cells in which
they differ.
-/

namespace StackMachine

namespace State

structure Reprogrammed (q : Program) (s t : State) : Prop where
  rom : t.rom = q
  size : q.size = s.rom.size
  pc : t.pc = s.pc
  halted : t.halted = s.halted
  stack : t.stack = s.stack
  memory : t.memory = s.memory

def found? (s : State) : Option Nat := (s.rom.cell? s.pc).map fun _ => s.pc

/-- The indexes at which the next cycle finds a cell, be it a number or a label. -/
def fetched (s : State) : List Nat :=
  if s.halted then []
  -- The opcode, and then the literal if there is one; no other instruction fetches.
  else s.found?.toList ++ if s.nextOpcode? = some .push then s.advance.found?.toList else []

theorem mem_found? {s : State} {cell : Cell} (h : s.rom.cell? s.pc = some cell) : s.pc ∈ s.found?.toList := by
  simp [found?, h]

theorem found_mem_fetched {s : State} (hr : s.halted = false) {i : Nat} (hi : i ∈ s.found?.toList) :
    i ∈ s.fetched := by
  simp only [fetched, hr, Bool.false_eq_true, ↓reduceIte, List.mem_append]
  exact .inl hi

theorem literal_mem_fetched {s : State} (hr : s.halted = false) (hop : s.nextOpcode? = some .push) {i : Nat}
    (hi : i ∈ s.advance.found?.toList) : i ∈ s.fetched := by
  simp only [fetched, hr, hop, Bool.false_eq_true, ↓reduceIte, List.mem_append]
  exact .inr hi

theorem Reprogrammed.cell? {q : Program} {s t : State} (h : s.Reprogrammed q t)
    (hf : ∀ i ∈ s.found?.toList, q.cell? i = s.rom.cell? i) : t.rom.cell? t.pc = s.rom.cell? s.pc := by
  rw [h.rom, h.pc]
  cases hc : s.rom.cell? s.pc with
  | some cell => rw [hf s.pc (mem_found? hc), hc]
  | none =>
    rw [Program.cell?_eq_none_iff] at hc ⊢
    rwa [h.size]

theorem Reprogrammed.pastEnd {q : Program} {s t : State} (h : s.Reprogrammed q t) : t.pastEnd = s.pastEnd := by
  rw [State.pastEnd, State.pastEnd, h.rom, h.size, h.pc]

end State

open State (Reprogrammed)

theorem fetchFree_reprogrammed (q : Program) : FetchFree (Reprogrammed q) some where
  memory h := h.memory
  setHalted h _ := { h with halted := rfl }
  setMemory h _ := { h with memory := rfl }
  pushAll h values := { h with stack := congrArg (Stack.pushAll · values) h.stack }
  pop := by
    apply Action.pop_alike
    · exact fun h => h.stack
    · exact fun h _ => { h with stack := rfl }
    · exact fun _ _ => rfl
  popMany := by
    apply Action.popMany_alike
    · exact fun h => h.stack
    · exact fun h _ => { h with stack := rfl }
    · exact fun _ _ => rfl
  jump := by
    apply Action.jump_alike
    · exact fun h => h.pc
    · exact fun h => (congrArg Program.size h.rom).trans h.size
    · exact fun h _ => { h with pc := rfl }
    · exact fun _ _ => rfl
  address _ := rfl

namespace Action

theorem fetch_reprogrammed {q : Program} {s t : State} (h : s.Reprogrammed q t)
    (hf : ∀ i ∈ s.found?.toList, q.cell? i = s.rom.cell? i) :
    Matched Eq (Reprogrammed q) some (fetch s) (fetch t) := by
  apply fetch_matched (h.cell? hf) h
  · intro cell hc
    exact { h with pc := congrArg (· + 1) h.pc }
  · rw [h.pc, h.rom, h.size]
  · intro name
    rw [h.pc]

theorem execute_reprogrammed {q : Program} {s t : State} {op : Opcode} (h : s.Reprogrammed q t)
    (hf : op = .push → ∀ i ∈ s.found?.toList, q.cell? i = s.rom.cell? i) :
    Matched (fun e e' => e'.values = e.values) (Reprogrammed q) some (op.instruction.execute s)
      (op.instruction.execute t) := by
  by_cases hop : op = .push
  · have hfetch := fetch_reprogrammed h (hf hop)
    subst hop
    exact (fetchFree_reprogrammed q).execute_push hfetch
  · apply (fetchFree_reprogrammed q).execute _ s t h
    cases op with
    | push => exact absurd rfl hop
    | _ => exact nofun

theorem cycle_reprogrammed {q : Program} {s t : State} (h : s.Reprogrammed q t) (hr : s.halted = false)
    (hf : ∀ i ∈ s.fetched, q.cell? i = s.rom.cell? i) :
    Matched (fun e e' => e'.values = e.values) (Reprogrammed q) some (cycle s) (cycle t) := by
  have hfirst := fetch_reprogrammed h fun i hi => hf i (State.found_mem_fetched hr hi)
  apply (fetchOpcode_matched hfirst fun _ => rfl).bind
  rintro op _ s' t' hs rfl h'
  obtain ⟨hop, rfl⟩ := fetchOpcode_eq_ok hs
  have hsecond : op = .push → ∀ i ∈ s.advance.found?.toList, q.cell? i = s.rom.cell? i := by
    rintro rfl i hi
    exact hf i (State.literal_mem_fetched hr hop hi)
  apply (execute_reprogrammed h' hsecond).bind
  intro effect effect' u v _ hv hu
  exact .ok hv (State.settle_related (fetchFree_reprogrammed q).setHalted hu hu.halted hu.pastEnd)

end Action

namespace Machine

variable {σ : Type} [Sink σ]

theorem inStep_reprogrammed {q : Program} {m m' : Machine σ} (h : m.state.Reprogrammed q m'.state)
    (hf : ∀ i ∈ m.state.fetched, q.cell? i = m.state.rom.cell? i) :
    InStep (Reprogrammed q) some m m' (step m) (step m') := by
  apply inStep_of_cycle (fun h => h.halted) h
  intro hr
  exact Action.cycle_reprogrammed h hr hf

def returned : EStateM.Result Fault (Machine σ) Bool → Except Fault Bool
  | .ok running _ => .ok running
  | .error fault _ => .error fault

def fetchedWithin (m : Machine σ) (n : Nat) : List Nat := (List.range n).flatMap fun k => (m.after k).state.fetched

theorem mem_fetchedWithin {m : Machine σ} {n k i : Nat} (hk : k < n) (hi : i ∈ (m.after k).state.fetched) :
    i ∈ m.fetchedWithin n :=
  List.mem_flatMap.mpr ⟨k, List.mem_range.mpr hk, hi⟩

theorem afterStep_of_error {m next : Machine σ} {fault : Fault} (h : step m = .error fault next) :
    m.afterStep = next := by
  rw [afterStep, h]

theorem afterStep_rom (m : Machine σ) : m.afterStep.state.rom = m.state.rom := by
  cases hs : step m with
  | ok running next =>
    rw [afterStep_of_ok hs]
    exact step_ok_rom hs
  | error fault next =>
    rw [afterStep_of_error hs]
    exact (faulted_of_step (not_halted_of_step_error hs) hs).1.rom

theorem after_rom (m : Machine σ) (n : Nat) : (m.after n).state.rom = m.state.rom := by
  induction n with
  | zero => rfl
  | succ n ih => exact (afterStep_rom _).trans ih

theorem InStep.alike {R : State → State → Prop} {m m' : Machine σ} (h : InStep R some m m' (step m) (step m')) :
    returned (step m') = returned (step m) ∧ R m.afterStep.state m'.afterStep.state ∧
      (m'.output = m.output → m'.afterStep.output = m.afterStep.output) := by
  generalize hm : step m = r at h
  generalize hm' : step m' = r' at h
  cases h with
  | ok values ho ho' hn =>
    rw [afterStep_of_ok hm, afterStep_of_ok hm', ho, ho']
    exact ⟨rfl, hn, fun h => congrArg (Sink.accept · values) h⟩
  | error hf ho ho' hn =>
    cases hf
    rw [afterStep_of_error hm, afterStep_of_error hm', ho, ho']
    exact ⟨rfl, hn, id⟩
  | exempt hf => cases hf

theorem agree_on_fetched {q : Program} {m : Machine σ} {n k : Nat}
    (hf : ∀ i ∈ m.fetchedWithin n, q.cell? i = m.state.rom.cell? i) (hk : k < n) :
    ∀ i ∈ (m.after k).state.fetched, q.cell? i = (m.after k).state.rom.cell? i := by
  intro i hi
  rw [after_rom]
  exact hf i (mem_fetchedWithin hk hi)

theorem after_reprogrammed {q : Program} {m m' : Machine σ} (h : m.state.Reprogrammed q m'.state)
    (ho : m'.output = m.output) {n : Nat} (hf : ∀ i ∈ m.fetchedWithin n, q.cell? i = m.state.rom.cell? i) {k : Nat}
    (hk : k ≤ n) : (m.after k).state.Reprogrammed q (m'.after k).state ∧ (m'.after k).output = (m.after k).output := by
  induction k with
  | zero => exact ⟨h, ho⟩
  | succ k ih =>
    obtain ⟨hstate, hout⟩ := ih (Nat.le_of_succ_le hk)
    obtain ⟨_, hnext, hemits⟩ := (inStep_reprogrammed hstate (agree_on_fetched hf hk)).alike
    exact ⟨hnext, hemits hout⟩

theorem fetched_of_illegalValue {m next : Machine σ} {i : Nat} {name : String}
    (h : step m = .error (.illegalValue i name) next) :
    i ∈ m.state.fetched ∧ m.state.rom.cell? i = some (.label name) := by
  have hr := not_halted_of_step_error h
  have hc := step_cycle hr
  rw [h] at hc
  cases hc with
  | label hl => exact ⟨State.found_mem_fetched hr (State.mem_found? hl), hl⟩
  | @fault op _ _ hop he =>
    cases op with
    | push =>
      cases he with
      | pushLabel hl => exact ⟨State.literal_mem_fetched hr hop (State.mem_found? hl), hl⟩
    | _ => cases he

theorem unfetched_cells_do_not_matter (p q : Program) (n : Nat) (output : σ) (journal journal' : Journal)
    (hsize : q.size = p.size)
    (hcells : ∀ i ∈ (start p output journal).fetchedWithin n, q.cell? i = p.cell? i) :
    (∀ k < n, returned (step ((start q output journal').after k)) =
        returned (step ((start p output journal).after k))) ∧
      (∀ k ≤ n, ((start p output journal).after k).state.Reprogrammed q ((start q output journal').after k).state ∧
        ((start q output journal').after k).output = ((start p output journal).after k).output) ∧
      ∀ k < n, ∀ i name next, step ((start p output journal).after k) = .error (.illegalValue i name) next →
        p.cell? i = some (.label name) ∧ i ∈ (start p output journal).fetchedWithin n := by
  have hempty : q.isEmpty = p.isEmpty := by
    rw [Bool.eq_iff_iff, q.isEmpty_iff_size, p.isEmpty_iff_size, hsize]
  have hstart : (start p output journal).state.Reprogrammed q (start q output journal').state :=
    ⟨rfl, hsize, rfl, hempty, rfl, rfl⟩
  refine ⟨?_, fun k hk => after_reprogrammed hstart rfl hcells hk, ?_⟩
  · intro k hk
    obtain ⟨hstate, _⟩ := after_reprogrammed hstart rfl hcells (Nat.le_of_lt hk)
    exact (inStep_reprogrammed hstate (agree_on_fetched hcells hk)).alike.1
  · intro k hk i name next hstep
    obtain ⟨hi, hlabel⟩ := fetched_of_illegalValue hstep
    rw [after_rom] at hlabel
    exact ⟨hlabel, mem_fetchedWithin hk hi⟩

def jumpOver (cell : Cell) : Program :=
  ((((Program.empty.emitPush (Number.ofNat 1)).emit .jmp).push cell).emitPush Number.nan).emit .out

theorem unfetched_cells_do_not_matter_jumpOver :
    ((start (jumpOver (.label "skipped")) ({} : Collector) .silent).fetchedWithin 6 = [0, 1, 2, 4, 5, 6]) ∧
      returned (step ((start (jumpOver (.number Number.zero)) ({} : Collector) .silent).after 3)) = .ok false ∧
      ((start (jumpOver (.number Number.zero)) ({} : Collector) .silent).after 6).output.values = [Number.nan] := by
  have hfetched : (start (jumpOver (.label "skipped")) ({} : Collector) .silent).fetchedWithin 6 =
      [0, 1, 2, 4, 5, 6] := by
    decide +kernel
  have hcells : ∀ i ∈ (start (jumpOver (.label "skipped")) ({} : Collector) .silent).fetchedWithin 6,
      (jumpOver (.number Number.zero)).cell? i = (jumpOver (.label "skipped")).cell? i := by
    rw [hfetched]
    decide +kernel
  obtain ⟨hreturned, hafter, _⟩ := unfetched_cells_do_not_matter (jumpOver (.label "skipped"))
    (jumpOver (.number Number.zero)) 6 ({} : Collector) .silent .silent rfl hcells
  have hstops : returned (step ((start (jumpOver (.label "skipped")) ({} : Collector) .silent).after 3)) =
      .ok false := by
    decide +kernel
  have hvalues : ((start (jumpOver (.label "skipped")) ({} : Collector) .silent).after 6).output.values =
      [Number.nan] := by
    decide +kernel
  exact ⟨hfetched, (hreturned 3 (by decide)).trans hstops,
    (congrArg Collector.values (hafter 6 (Nat.le_refl 6)).2).trans hvalues⟩

end Machine

end StackMachine
