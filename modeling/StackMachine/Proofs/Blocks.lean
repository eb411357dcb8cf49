import StackMachine.Proofs.Observation

namespace StackMachine

namespace State

def running (p : Program) (pc : Nat) (stack : Stack) (memory : Memory) : State := ⟨p, pc, false, stack, memory⟩

/-- `Passes k values s t`: the next `k` cycles of `s` emit the values, lead to `t`, and never halt. -/
inductive Passes : Nat → List Number → State → State → Prop
  | zero (s : State) : Passes 0 [] s s
  | succ {k : Nat} {effect : Effect} {values : List Number} {s next last : State} (hs : s.halted = false)
      (h : Action.cycle s = .ok effect next) (hn : next.halted = false) (rest : Passes k values next last) :
      Passes (k + 1) (effect.values ++ values) s last

theorem Passes.trans {k l : Nat} {first second : List Number} {s t u : State} (h : Passes k first s t)
    (hu : Passes l second t u) : Passes (k + l) (first ++ second) s u := by
  induction h with
  | zero s => rwa [Nat.zero_add]
  | succ hs h hn _ ih =>
    rw [Nat.add_right_comm, List.append_assoc]
    exact .succ hs h hn (ih hu)

instance {k l : Nat} {first second : List Number} :
    Trans (Passes k first) (Passes l second) (Passes (k + l) (first ++ second)) := ⟨Passes.trans⟩

theorem settle_of_lt {p : Program} {pc : Nat} (h : pc < p.size) (stack : Stack) (memory : Memory) :
    (running p pc stack memory).settle = running p pc stack memory := by
  have hend : (running p pc stack memory).pastEnd = false := decide_eq_false (Nat.not_le.mpr h)
  rw [settle, hend]
  rfl

section Instructions

variable {p : Program} {pc : Nat} {stack : Stack} {memory : Memory}

theorem cycle_of_ends {op : Opcode} {effect : Effect} {t : State} (hop : p.cell? pc = some (.number op.number))
    (h : op.instruction.Ends (running p (pc + 1) stack memory) (.ok effect t)) :
    Action.cycle (running p pc stack memory) = .ok effect t.settle :=
  Action.cycle_of_execute_ok (nextOpcode?_of_number hop) h.execute_eq

theorem passes_of_ends {op : Opcode} {effect : Effect} {pc' : Nat} {stack' : Stack} {memory' : Memory}
    (hop : p.cell? pc = some (.number op.number)) (hlt : pc' < p.size)
    (h : op.instruction.Ends (running p (pc + 1) stack memory) (.ok effect (running p pc' stack' memory'))) :
    Passes 1 effect.values (running p pc stack memory) (running p pc' stack' memory') := by
  have hc := cycle_of_ends hop h
  rw [settle_of_lt hlt] at hc
  simpa using Passes.succ rfl hc rfl (.zero _)

theorem passes_push {x : Number} (hop : p.cell? pc = some (.number Opcode.push.number))
    (hx : p.cell? (pc + 1) = some (.number x)) (hlt : pc + 2 < p.size) :
    Passes 1 [] (running p pc stack memory) (running p (pc + 2) (x :: stack) memory) :=
  passes_of_ends hop hlt (.push hx)

theorem passes_load {a : Number} {address : Address} (hop : p.cell? pc = some (.number Opcode.load.number))
    (ha : Address.ofNumber? a = some address) (hlt : pc + 1 < p.size) :
    Passes 1 [] (running p pc (a :: stack) memory) (running p (pc + 1) (memory.get address :: stack) memory) := by
  have hread : memory.read a = memory.get address := by
    simp only [Memory.read, Memory.load, ha]
  rw [← hread]
  exact passes_of_ends hop hlt (.load rfl (Address.not_less_of_ofNumber? ha))

theorem passes_store {a value : Number} {address : Address} (hop : p.cell? pc = some (.number Opcode.store.number))
    (ha : Address.ofNumber? a = some address) (hlt : pc + 1 < p.size) :
    Passes 1 [] (running p pc (a :: value :: stack) memory)
      (running p (pc + 1) stack (memory.set address value)) :=
  passes_of_ends hop hlt (.store rfl (Address.not_less_of_ofNumber? ha) (Memory.stores_set ha memory value))

theorem passes_out {value : Number} (hop : p.cell? pc = some (.number Opcode.out.number)) (hlt : pc + 1 < p.size) :
    Passes 1 [value] (running p pc (value :: stack) memory) (running p (pc + 1) stack memory) :=
  passes_of_ends hop hlt (.out rfl)

theorem passes_operate (op : Opcode) {operation : Operation} (ho : op.instruction = .operate operation)
    (operands : List Number) (hl : operands.length = operation.arity) (hop : p.cell? pc = some (.number op.number))
    (hlt : pc + 1 < p.size) :
    Passes 1 [] (running p pc (operands.reverse ++ stack) memory)
      (running p (pc + 1) ((operation.apply operands).reverse ++ stack) memory) := by
  have hends : op.instruction.Ends (running p (pc + 1) (operands.reverse ++ stack) memory)
      (.ok .quiet (running p (pc + 1) ((operation.apply operands).reverse ++ stack) memory)) := by
    rw [ho]
    exact .operate rfl hl
  exact passes_of_ends hop hlt hends

theorem passes_branch (op : Opcode) {condition : Condition} (ho : op.instruction = .branch condition) {offset : Number}
    (operands : List Number) (hl : operands.length = condition.arity) (ht : condition.test operands = true) {i : Nat}
    (hi : p.HasIndex (Number.ofNat (pc + 1) + offset) i) (hop : p.cell? pc = some (.number op.number)) :
    Passes 1 [] (running p pc (offset :: (operands.reverse ++ stack)) memory) (running p i stack memory) := by
  have hends : op.instruction.Ends (running p (pc + 1) (offset :: (operands.reverse ++ stack)) memory)
      (.ok (.jumped (pc + 1) i) (running p i stack memory)) := by
    rw [ho]
    exact .branchTaken rfl hl ht hi
  exact passes_of_ends hop hi.2.1 hends

theorem passes_recall {a value : Number} {address : Address} (ha : Address.ofNumber? a = some address)
    (hget : memory.get address = value) (hpush : p.cell? pc = some (.number Opcode.push.number))
    (hx : p.cell? (pc + 1) = some (.number a)) (hload : p.cell? (pc + 2) = some (.number Opcode.load.number))
    (hlt : pc + 3 < p.size) :
    Passes 2 [] (running p pc stack memory) (running p (pc + 3) (value :: stack) memory) := by
  rw [← hget]
  exact (passes_push hpush hx (Nat.lt_of_succ_lt hlt)).trans (passes_load hload ha hlt)

theorem passes_keep {a value : Number} {address : Address} {memory' : Memory}
    (ha : Address.ofNumber? a = some address) (hset : memory.set address value = memory')
    (hpush : p.cell? pc = some (.number Opcode.push.number)) (hx : p.cell? (pc + 1) = some (.number a))
    (hstore : p.cell? (pc + 2) = some (.number Opcode.store.number)) (hlt : pc + 3 < p.size) :
    Passes 2 [] (running p pc (value :: stack) memory) (running p (pc + 3) stack memory') := by
  rw [← hset]
  exact (passes_push hpush hx (Nat.lt_of_succ_lt hlt)).trans (passes_store hstore ha hlt)

end Instructions

end State

namespace Machine

variable {σ : Type} [Sink σ]

theorem exists_steps_of_passes {k : Nat} {values : List Number} {s t : State} (h : State.Passes k values s t)
    (m : Machine σ) (hm : m.state = s) : ∃ last, Steps k m last ∧ last.state = t ∧
      last.output = Sink.accept m.output values ∧ last.cycles = m.cycles + k := by
  induction h generalizing m with
  | zero s => exact ⟨m, .zero m, hm, rfl, rfl⟩
  | @succ k effect values s next t hs hc hn _ ih =>
    subst hm
    obtain ⟨journal, hstep⟩ := exists_step_of_cycle_ok hs hc
    rw [hn] at hstep
    obtain ⟨last, hsteps, hstate, houtput, hcycles⟩ :=
      ih ⟨next, Sink.accept m.output effect.values, journal, m.cycles + 1⟩ rfl
    refine ⟨last, .succ hstep hsteps, hstate, ?_, ?_⟩
    · rw [houtput, Sink.accept_append]
    · exact hcycles.trans (Nat.succ_add m.cycles k)

theorem computes_of_passes {k : Nat} {values : List Number} {effect : Effect} {s t u : State}
    (h : State.Passes k values s t) (ht : t.halted = false) (hc : Action.cycle t = .ok effect u) (hu : u.halted = true)
    (m : Machine σ) (hm : m.state = s) :
    m.Computes ⟨none, u, Sink.accept m.output (values ++ effect.values), m.cycles + k + 1⟩ := by
  obtain ⟨last, hsteps, hstate, houtput, hcycles⟩ := exists_steps_of_passes h m hm
  subst hstate
  obtain ⟨journal, hstep⟩ := exists_step_of_cycle_ok ht hc
  rw [hu] at hstep
  apply (hsteps.computes_iff _).mp
  refine ⟨1, _, run_of_stopped hstep 0, ?_⟩
  rw [Sink.accept_append, ← houtput, ← hcycles]
  rfl

end Machine

end StackMachine
