import StackMachine.Proofs.Observation

/-!
Two machines in lockstep. A relation between states that the single actions keep is kept by instructions, by steps
and by runs, and two machines in related states return and emit the same. A law of this kind says which fault on
one side goes with which on the other, and may exempt some faults altogether.
-/

namespace StackMachine

/--
How the ends of two actions compare. A fault of the first goes with the one that `f` gives for it in the second, and
with whatever the second does if `f` gives none.
-/
inductive Matched {α : Type} (V : α → α → Prop) (R : State → State → Prop) (f : Fault → Option Fault) :
    EStateM.Result Fault State α → EStateM.Result Fault State α → Prop
  | ok {a b : α} {s t : State} (hv : V a b) (h : R s t) : Matched V R f (.ok a s) (.ok b t)
  | error {fault fault' : Fault} {s t : State} (hf : f fault = some fault') (h : R s t) :
      Matched V R f (.error fault s) (.error fault' t)
  | exempt {fault : Fault} {s : State} (hf : f fault = none) (r : EStateM.Result Fault State α) :
      Matched V R f (.error fault s) r

def Action.Alike {α : Type} (V : α → α → Prop) (R : State → State → Prop) (f : Fault → Option Fault)
    (x y : Action α) : Prop :=
  ∀ s t, R s t → Matched V R f (x s) (y t)

section Actions

variable {α β : Type} {V : α → α → Prop} {W : β → β → Prop} {R : State → State → Prop} {f : Fault → Option Fault}

theorem Matched.of_ok {a : α} {s : State} {r : EStateM.Result Fault State α} (h : Matched V R f (.ok a s) r) :
    ∃ b t, r = .ok b t ∧ V a b ∧ R s t := by
  cases h with
  | ok hv h => exact ⟨_, _, rfl, hv, h⟩

theorem Matched.of_error {fault : Fault} {s : State} {r : EStateM.Result Fault State α}
    (h : Matched V R f (.error fault s) r) :
    f fault = none ∨ ∃ fault' t, f fault = some fault' ∧ r = .error fault' t ∧ R s t := by
  cases h with
  | error hf h => exact .inr ⟨_, _, hf, rfl, h⟩
  | exempt hf => exact .inl hf

theorem Matched.bind {x y : Action α} {k l : α → Action β} {s t : State} (hx : Matched V R f (x s) (y t))
    (hk : ∀ a b s' t', x s = .ok a s' → V a b → R s' t' → Matched W R f (k a s') (l b t')) :
    Matched W R f ((x >>= k) s) ((y >>= l) t) := by
  cases he : x s with
  | ok a s' =>
    rw [he] at hx
    obtain ⟨b, t', hy, hv, hs'⟩ := hx.of_ok
    rw [bind_ok he, bind_ok hy]
    exact hk a b s' t' he hv hs'
  | error fault s' =>
    rw [he] at hx
    rw [bind_error he]
    rcases hx.of_error with hf | ⟨fault', t', hf, hy, hs'⟩
    · exact .exempt hf _
    · rw [bind_error hy]
      exact .error hf hs'

namespace Action

theorem jump_index {s : State} {offset : Number} {i : Nat} (h : s.rom.HasIndex (Number.ofNat s.pc + offset) i) :
    jump offset s = .ok () { s with pc := i } :=
  jumpTo_index h

theorem jump_no_index {s : State} {offset : Number} (h : ∀ i, ¬ s.rom.HasIndex (Number.ofNat s.pc + offset) i) :
    jump offset s = .error (.illegalJumpTarget (Number.ofNat s.pc + offset) s.rom.size) s :=
  jumpTo_no_index h

theorem Alike.pure {a b : α} (h : V a b) : Alike V R f (pure a) (pure b) := fun _ _ hs => .ok h hs

theorem Alike.modify {g : State → State} (h : ∀ s t, R s t → R (g s) (g t)) :
    Alike Eq R f (modify g) (modify g) :=
  fun s t hs => .ok rfl (h s t hs)

theorem Alike.bind {x y : Action α} {k l : α → Action β} (hx : Alike Eq R f x y) (hk : ∀ a, Alike W R f (k a) (l a)) :
    Alike W R f (x >>= k) (y >>= l) := by
  intro s t hs
  apply (hx s t hs).bind
  rintro a _ s' t' _ rfl hs'
  exact hk a s' t' hs'

theorem Alike.bind_get {k l : State → Action α} (h : ∀ s t, Alike V R f (k s) (l t)) :
    Alike V R f (get >>= k) (get >>= l) :=
  fun s t hs => h s t s t hs

theorem fetch_matched {s t : State} (hc : t.rom.cell? t.pc = s.rom.cell? s.pc) (hs : R s t)
    (hadvance : ∀ cell, s.rom.cell? s.pc = some cell → R s.advance t.advance)
    (hoverrun : f (.romOverrun s.pc s.rom.size) = some (.romOverrun t.pc t.rom.size))
    (hlabel : ∀ name, f (.illegalValue s.pc name) = some (.illegalValue t.pc name)) :
    Matched Eq R f (fetch s) (fetch t) := by
  cases hcell : s.rom.cell? s.pc with
  | none =>
    rw [fetch_none hcell, fetch_none (hc.trans hcell)]
    exact .error hoverrun hs
  | some cell =>
    cases cell with
    | number x =>
      rw [fetch_number hcell, fetch_number (hc.trans hcell)]
      exact .ok rfl (hadvance _ hcell)
    | label name =>
      rw [fetch_label hcell, fetch_label (hc.trans hcell)]
      exact .error (hlabel name) (hadvance _ hcell)

theorem fetchOpcode_matched {s t : State} (hf : Matched Eq R f (fetch s) (fetch t))
    (hopcode : ∀ code, f (.illegalOpcode code) = some (.illegalOpcode code)) :
    Matched Eq R f (fetchOpcode s) (fetchOpcode t) := by
  apply hf.bind
  rintro code _ s' t' _ rfl hs'
  cases Opcode.ofNumber? code with
  | some op => exact .ok rfl hs'
  | none => exact .error (hopcode code) hs'

theorem pop_alike (hstack : ∀ {s t}, R s t → t.stack = s.stack)
    (hset : ∀ {s t}, R s t → ∀ stack, R { s with stack } { t with stack })
    (hf : ∀ needed depth, f (.stackUnderflow needed depth) = some (.stackUnderflow needed depth)) :
    Alike Eq R f pop pop := by
  intro s t h
  cases hs : s.stack with
  | nil =>
    rw [pop_nil hs, pop_nil ((hstack h).trans hs)]
    exact .error (hf ..) h
  | cons value rest =>
    rw [pop_cons hs, pop_cons ((hstack h).trans hs)]
    exact .ok rfl (hset h rest)

theorem popMany_alike (hstack : ∀ {s t}, R s t → t.stack = s.stack)
    (hset : ∀ {s t}, R s t → ∀ stack, R { s with stack } { t with stack })
    (hf : ∀ needed depth, f (.stackUnderflow needed depth) = some (.stackUnderflow needed depth)) (count : Nat) :
    Alike Eq R f (popMany count) (popMany count) := by
  intro s t h
  by_cases hl : s.stack.length < count
  · rw [popMany_underflow hl, popMany_underflow ((hstack h).symm ▸ hl), hstack h]
    exact .error (hf ..) h
  · obtain ⟨operands, rest, hs, ho⟩ := Stack.exists_operands (Nat.not_lt.mp hl)
    rw [popMany_operands hs ho, popMany_operands ((hstack h).trans hs) ho]
    exact .ok rfl (hset h rest)

theorem jump_alike (hpc : ∀ {s t}, R s t → t.pc = s.pc) (hsize : ∀ {s t}, R s t → t.rom.size = s.rom.size)
    (hset : ∀ {s t}, R s t → ∀ pc, R { s with pc } { t with pc })
    (hf : ∀ target size, f (.illegalJumpTarget target size) = some (.illegalJumpTarget target size))
    (offset : Number) : Alike Eq R f (jump offset) (jump offset) := by
  intro s t h
  -- A jump looks at how many cells there are, and not at the cells.
  have hindex : ∀ i, t.rom.HasIndex (Number.ofNat t.pc + offset) i ↔ s.rom.HasIndex (Number.ofNat s.pc + offset) i := by
    intro i
    rw [Program.HasIndex, Program.HasIndex, hsize h, hpc h]
  by_cases hi : ∃ i, s.rom.HasIndex (Number.ofNat s.pc + offset) i
  · obtain ⟨i, hi⟩ := hi
    rw [jump_index hi, jump_index ((hindex i).mpr hi)]
    exact .ok rfl (hset h i)
  · have hn : ∀ i, ¬ s.rom.HasIndex (Number.ofNat s.pc + offset) i := fun i h => hi ⟨i, h⟩
    rw [jump_no_index hn, jump_no_index fun i => mt (hindex i).mp (hn i), hsize h, hpc h]
    exact .error (hf ..) h

end Action

end Actions

structure FetchFree (R : State → State → Prop) (f : Fault → Option Fault) : Prop where
  memory {s t : State} (h : R s t) : t.memory = s.memory
  setHalted {s t : State} (h : R s t) (halted : Bool) : R { s with halted } { t with halted }
  setMemory {s t : State} (h : R s t) (memory : Memory) : R { s with memory } { t with memory }
  pushAll {s t : State} (h : R s t) (values : List Number) :
    R { s with stack := s.stack.pushAll values } { t with stack := t.stack.pushAll values }
  pop : Action.Alike Eq R f Action.pop Action.pop
  popMany (count : Nat) : Action.Alike Eq R f (Action.popMany count) (Action.popMany count)
  jump (offset : Number) : Action.Alike Eq R f (Action.jump offset) (Action.jump offset)
  address (a : Number) : f (.illegalAddress a) = some (.illegalAddress a)

namespace FetchFree

variable {R : State → State → Prop} {f : Fault → Option Fault}

theorem push (h : FetchFree R f) (value : Number) :
    Action.Alike Eq R f (Action.push value) (Action.push value) :=
  .modify fun _ _ hs => h.pushAll hs [value]

theorem load (h : FetchFree R f) (a : Number) : Action.Alike Eq R f (Action.load a) (Action.load a) := by
  intro s t hs
  by_cases ha : a.less Number.zero
  · rw [Action.load_illegal ha, Action.load_illegal ha]
    exact .error (h.address a) hs
  · rw [Action.load_legal ha, Action.load_legal ha, h.memory hs]
    exact .ok rfl hs

theorem store (h : FetchFree R f) (a value : Number) :
    Action.Alike Eq R f (Action.store a value) (Action.store a value) := by
  intro s t hs
  by_cases ha : a.less Number.zero
  · rw [Action.store_illegal ha, Action.store_illegal ha]
    exact .error (h.address a) hs
  · obtain ⟨memory, hm⟩ := Memory.exists_stores ha s.memory value
    rw [Action.store_legal hm, Action.store_legal (s := t) ((h.memory hs).symm ▸ hm)]
    exact .ok rfl (h.setMemory hs memory)

theorem execute_push (h : FetchFree R f) {s t : State} (hf : Matched Eq R f (Action.fetch s) (Action.fetch t)) :
    Matched (fun e e' => e'.values = e.values) R f (Instruction.execute .push s) (Instruction.execute .push t) := by
  apply hf.bind
  rintro x _ s' t' _ rfl hs'
  apply (h.push x s' t' hs').bind
  intro _ _ u v _ _ hu
  exact .ok rfl hu

theorem execute (h : FetchFree R f) {i : Instruction} (hi : i ≠ .push) :
    Action.Alike (fun e e' => e'.values = e.values) R f i.execute i.execute := by
  cases i with
  | nop => exact .pure rfl
  | push => exact absurd rfl hi
  | load => exact h.pop.bind fun a => (h.load a).bind fun x => (h.push x).bind fun _ => .pure rfl
  | store => exact h.pop.bind fun a => h.pop.bind fun x => (h.store a x).bind fun _ => .pure rfl
  | halt => exact Action.Alike.bind (.modify fun _ _ hs => h.setHalted hs true) fun _ => .pure rfl
  | out => exact h.pop.bind fun x => .pure rfl
  | operate operation =>
    refine (h.popMany operation.arity).bind fun operands => ?_
    exact Action.Alike.bind (.modify fun _ _ hs => h.pushAll hs _) fun _ => .pure rfl
  | branch condition =>
    refine h.pop.bind fun offset => (h.popMany condition.arity).bind fun operands => ?_
    split
    · apply Action.Alike.bind_get
      intro s t
      refine (h.jump offset).bind fun _ => ?_
      exact Action.Alike.bind_get fun _ _ => .pure rfl
    · exact .pure rfl

end FetchFree

theorem State.settle_related {R : State → State → Prop}
    (hset : ∀ {s t : State}, R s t → ∀ halted : Bool, R { s with halted } { t with halted }) {s t : State} (hs : R s t)
    (hhalted : t.halted = s.halted) (hend : t.pastEnd = s.pastEnd) : R s.settle t.settle := by
  have ht : t.settle = { t with halted := s.settle.halted } := by
    rw [State.settle, State.settle, hhalted, hend]
  rw [ht]
  exact hset hs _

/-- What a relation has to keep, action by action, for two machines to run in lockstep. -/
structure Simulation (R : State → State → Prop) (f : Fault → Option Fault) : Prop where
  cell {s t : State} (h : R s t) : t.rom.cell? t.pc = s.rom.cell? s.pc
  halted {s t : State} (h : R s t) : t.halted = s.halted
  pastEnd {s t : State} (h : R s t) : t.pastEnd = s.pastEnd
  memory {s t : State} (h : R s t) : t.memory = s.memory
  advance {s t : State} (h : R s t) {cell : Cell} (hc : s.rom.cell? s.pc = some cell) : R s.advance t.advance
  setHalted {s t : State} (h : R s t) (halted : Bool) : R { s with halted } { t with halted }
  setMemory {s t : State} (h : R s t) (memory : Memory) : R { s with memory } { t with memory }
  pushAll {s t : State} (h : R s t) (values : List Number) :
    R { s with stack := s.stack.pushAll values } { t with stack := t.stack.pushAll values }
  pop : Action.Alike Eq R f Action.pop Action.pop
  popMany (count : Nat) : Action.Alike Eq R f (Action.popMany count) (Action.popMany count)
  jump (offset : Number) : Action.Alike Eq R f (Action.jump offset) (Action.jump offset)
  overrun {s t : State} (h : R s t) : f (.romOverrun s.pc s.rom.size) = some (.romOverrun t.pc t.rom.size)
  label {s t : State} (h : R s t) (name : String) : f (.illegalValue s.pc name) = some (.illegalValue t.pc name)
  opcode (code : Number) : f (.illegalOpcode code) = some (.illegalOpcode code)
  address (a : Number) : f (.illegalAddress a) = some (.illegalAddress a)

namespace Simulation

variable {R : State → State → Prop} {f : Fault → Option Fault}

theorem fetchFree (h : Simulation R f) : FetchFree R f where
  memory := h.memory
  setHalted := h.setHalted
  setMemory := h.setMemory
  pushAll := h.pushAll
  pop := h.pop
  popMany := h.popMany
  jump := h.jump
  address := h.address

theorem settle (h : Simulation R f) {s t : State} (hs : R s t) : R s.settle t.settle :=
  State.settle_related h.setHalted hs (h.halted hs) (h.pastEnd hs)

theorem fetch (h : Simulation R f) : Action.Alike Eq R f Action.fetch Action.fetch :=
  fun _ _ hs => Action.fetch_matched (h.cell hs) hs (fun _ hc => h.advance hs hc) (h.overrun hs) (h.label hs)

theorem fetchOpcode (h : Simulation R f) : Action.Alike Eq R f Action.fetchOpcode Action.fetchOpcode :=
  fun s t hs => Action.fetchOpcode_matched (h.fetch s t hs) h.opcode

theorem execute (h : Simulation R f) (i : Instruction) :
    Action.Alike (fun e e' => e'.values = e.values) R f i.execute i.execute := by
  by_cases hi : i = .push
  · subst hi
    exact fun s t hs => h.fetchFree.execute_push (h.fetch s t hs)
  · exact h.fetchFree.execute hi

theorem cycle (h : Simulation R f) :
    Action.Alike (fun e e' => e'.values = e.values) R f Action.cycle Action.cycle := by
  apply h.fetchOpcode.bind
  intro op s t hs
  apply (h.execute op.instruction s t hs).bind
  intro effect effect' s' t' _ hv hs'
  exact .ok hv (h.settle hs')

end Simulation

theorem Action.fetchOpcode_eq_ok {s t : State} {op : Opcode} (h : fetchOpcode s = .ok op t) :
    s.nextOpcode? = some op ∧ t = s.advance := by
  cases hop : s.nextOpcode? with
  | none =>
    obtain ⟨fault, u, he⟩ := exists_fetchOpcode_error hop
    cases he.symm.trans h
  | some op' =>
    cases (fetchOpcode_some hop).symm.trans h
    exact ⟨rfl, rfl⟩

namespace Machine

variable {σ : Type} [Sink σ] {R : State → State → Prop} {f : Fault → Option Fault}

inductive InStep (R : State → State → Prop) (f : Fault → Option Fault) (m m' : Machine σ) :
    EStateM.Result Fault (Machine σ) Bool → EStateM.Result Fault (Machine σ) Bool → Prop
  | ok {running : Bool} {next next' : Machine σ} (values : List Number) (ho : next.output = Sink.accept m.output values)
      (ho' : next'.output = Sink.accept m'.output values) (h : R next.state next'.state) :
      InStep R f m m' (.ok running next) (.ok running next')
  | error {fault fault' : Fault} {next next' : Machine σ} (hf : f fault = some fault') (ho : next.output = m.output)
      (ho' : next'.output = m'.output) (h : R next.state next'.state) :
      InStep R f m m' (.error fault next) (.error fault' next')
  | exempt {fault : Fault} {next : Machine σ} (hf : f fault = none) (r : EStateM.Result Fault (Machine σ) Bool) :
      InStep R f m m' (.error fault next) r

theorem inStep_of_cycle {m m' : Machine σ} (hhalted : ∀ {s t}, R s t → t.halted = s.halted)
    (hs : R m.state m'.state)
    (hc : m.state.halted = false →
      Matched (fun e e' => e'.values = e.values) R f (Action.cycle m.state) (Action.cycle m'.state)) :
    InStep R f m m' (step m) (step m') := by
  cases hr : m.state.halted with
  | true =>
    rw [step_of_halted hr, step_of_halted ((hhalted hs).trans hr)]
    exact .ok [] rfl rfl hs
  | false =>
    have hr' := (hhalted hs).trans hr
    replace hc := hc hr
    generalize he : Action.cycle m.state = r at hc
    generalize he' : Action.cycle m'.state = r' at hc
    cases hc with
    | @ok effect effect' s t hv ht =>
      obtain ⟨journal, hstep⟩ := exists_step_of_cycle_ok hr he
      obtain ⟨journal', hstep'⟩ := exists_step_of_cycle_ok hr' he'
      rw [hstep, hstep', hhalted ht]
      exact .ok effect.values rfl (by rw [hv]) ht
    | error hf ht =>
      obtain ⟨journal, hstep⟩ := exists_step_of_cycle_error hr he
      obtain ⟨journal', hstep'⟩ := exists_step_of_cycle_error hr' he'
      rw [hstep, hstep']
      exact .error hf rfl rfl ht
    | exempt hf =>
      obtain ⟨journal, hstep⟩ := exists_step_of_cycle_error hr he
      rw [hstep]
      exact .exempt hf _

theorem inStep {m m' : Machine σ} (h : Simulation R f) (hs : R m.state m'.state) :
    InStep R f m m' (step m) (step m') :=
  inStep_of_cycle h.halted hs fun _ => h.cycle _ _ hs

def afterStep (m : Machine σ) : Machine σ :=
  match step m with
  | .ok _ next => next
  | .error _ next => next

def after (m : Machine σ) : Nat → Machine σ
  | 0 => m
  | n + 1 => (m.after n).afterStep

def Succeeds (m : Machine σ) : Prop := ∃ running next, step m = .ok running next

structure StepsAlike (R : State → State → Prop) (m m' : Machine σ) : Prop where
  returns : ∃ running, step m = .ok running m.afterStep ∧ step m' = .ok running m'.afterStep
  emits : ∃ values, m.afterStep.output = Sink.accept m.output values ∧
    m'.afterStep.output = Sink.accept m'.output values
  states : R m.afterStep.state m'.afterStep.state

theorem afterStep_of_ok {m next : Machine σ} {running : Bool} (h : step m = .ok running next) :
    m.afterStep = next := by
  rw [afterStep, h]

theorem InStep.mono {S : State → State → Prop} (h : ∀ s t, R s t → S s t) {m m' : Machine σ}
    {r r' : EStateM.Result Fault (Machine σ) Bool} (hi : InStep R f m m' r r') : InStep S f m m' r r' := by
  cases hi with
  | ok values ho ho' hn => exact .ok values ho ho' (h _ _ hn)
  | error hf ho ho' hn => exact .error hf ho ho' (h _ _ hn)
  | exempt hf => exact .exempt hf _

theorem InStep.stepsAlike {m m' : Machine σ} (hi : InStep R f m m' (step m) (step m')) (hm : m.Succeeds) :
    StepsAlike R m m' := by
  obtain ⟨running, next, hm⟩ := hm
  rw [hm] at hi
  generalize hm' : step m' = r at hi
  cases hi with
  | ok values ho ho' hn =>
    obtain rfl := afterStep_of_ok hm
    obtain rfl := afterStep_of_ok hm'
    exact ⟨⟨running, hm, hm'⟩, ⟨values, ho, ho'⟩, hn⟩

theorem InStep.fault {m m' next : Machine σ} {fault fault' : Fault} (hi : InStep R f m m' (step m) (step m'))
    (hm : step m = .error fault next) (hf : f fault = some fault') :
    ∃ next', step m' = .error fault' next' ∧ R next.state next'.state := by
  rw [hm] at hi
  generalize step m' = r at hi
  cases hi with
  | error he _ _ hn =>
    cases he.symm.trans hf
    exact ⟨_, rfl, hn⟩
  | exempt he => cases he.symm.trans hf

theorem states_after {m m' : Machine σ} (h : Simulation R f) (hs : R m.state m'.state) {n : Nat}
    (hn : ∀ k < n, (m.after k).Succeeds) : R (m.after n).state (m'.after n).state := by
  induction n with
  | zero => exact hs
  | succ n ih =>
    have hbefore := ih fun k hk => hn k (Nat.lt_succ_of_lt hk)
    exact ((inStep h hbefore).stepsAlike (hn n (Nat.lt_succ_self n))).states

theorem stepsAlike_after {m m' : Machine σ} (h : Simulation R f) (hs : R m.state m'.state) {n : Nat}
    (hn : ∀ k < n, (m.after k).Succeeds) {k : Nat} (hk : k < n) : StepsAlike R (m.after k) (m'.after k) := by
  have hbefore := states_after h hs fun j hj => hn j (Nat.lt_trans hj hk)
  exact (inStep h hbefore).stepsAlike (hn k hk)

theorem outputs_after {m m' : Machine σ} (h : Simulation R f) (hs : R m.state m'.state) (ho : m'.output = m.output)
    {n : Nat} (hn : ∀ k < n, (m.after k).Succeeds) : (m'.after n).output = (m.after n).output := by
  induction n with
  | zero => exact ho
  | succ n ih =>
    have hn' : ∀ k < n, (m.after k).Succeeds := fun k hk => hn k (Nat.lt_succ_of_lt hk)
    obtain ⟨values, he, he'⟩ := (stepsAlike_after h hs hn (Nat.lt_succ_self n)).emits
    exact he'.trans ((congrArg (Sink.accept · values) (ih hn')).trans he.symm)

theorem after_add (m : Machine σ) (k n : Nat) : m.after (k + n) = (m.after k).after n := by
  induction n with
  | zero => rfl
  | succ n ih => exact congrArg afterStep ih

theorem computes_iff_of_ok {m next : Machine σ} {running : Bool} (h : step m = .ok running next)
    (c : Conclusion σ) : next.Computes c ↔ m.Computes c := by
  cases running with
  | true => exact (Steps.succ h (.zero next)).computes_iff c
  | false =>
    have hnext : next.state.halted = true := step_ok_halted h
    have hm := computes_of_step (congrArg stepConclusion? h)
    have hn := computes_of_step (congrArg stepConclusion? (step_of_halted hnext))
    constructor
    · intro hc
      rwa [hc.unique hn]
    · intro hc
      rwa [hc.unique hm]

theorem computes_after_iff {m : Machine σ} {n : Nat} (h : ∀ k < n, (m.after k).Succeeds) (c : Conclusion σ) :
    (m.after n).Computes c ↔ m.Computes c := by
  induction n with
  | zero => exact Iff.rfl
  | succ n ih =>
    obtain ⟨running, next, hs⟩ := h n (Nat.lt_succ_self n)
    have hstep := computes_iff_of_ok hs c
    rw [← afterStep_of_ok hs] at hstep
    exact hstep.trans (ih fun k hk => h k (Nat.lt_succ_of_lt hk))

structure ConcludesAlike (R : State → State → Prop) (f : Fault → Option Fault) (c c' : Conclusion σ) : Prop where
  fault : c'.fault? = c.fault?.bind f
  state : R c.state c'.state
  output : c'.output = c.output

theorem concludes_of_step {m m' : Machine σ} (h : Simulation R f) (hs : R m.state m'.state)
    (ho : m'.output = m.output) {c : Conclusion σ} (hc : stepConclusion? (step m) = some c)
    (hf : ∀ fault, c.fault? = some fault → f fault ≠ none) :
    ∃ c', m'.Computes c' ∧ ConcludesAlike R f c c' := by
  have hi := inStep h hs
  generalize hm : step m = r at hi hc
  generalize hm' : step m' = r' at hi
  cases hi with
  | @ok running _ _ values he he' hn =>
    cases running with
    | true => cases hc
    | false =>
      cases hc
      refine ⟨_, computes_of_step (congrArg stepConclusion? hm'), rfl, hn, ?_⟩
      exact he'.trans ((congrArg (Sink.accept · values) ho).trans he.symm)
  | error hfault he he' hn =>
    cases hc
    exact ⟨_, computes_of_step (congrArg stepConclusion? hm'), hfault.symm, hn, he'.trans (ho.trans he.symm)⟩
  | exempt hfault =>
    cases hc
    exact absurd hfault (hf _ rfl)

theorem concludes_of_simulation {m m' : Machine σ} (h : Simulation R f) (hs : R m.state m'.state)
    (ho : m'.output = m.output) {c : Conclusion σ} (hc : m.Computes c)
    (hf : ∀ fault, c.fault? = some fault → f fault ≠ none) :
    ∃ c', m'.Computes c' ∧ ConcludesAlike R f c c' := by
  obtain ⟨k, last, hk, hl⟩ := (computes_iff_stepsTo m c).mp hc
  induction hk generalizing m' with
  | zero m => exact concludes_of_step h hs ho hl hf
  | @succ k m next last hm _ ih =>
    have hi := inStep h hs
    rw [hm] at hi
    generalize hm' : step m' = r at hi
    cases hi with
    | ok values he he' hn =>
      have hout := he'.trans ((congrArg (Sink.accept · values) ho).trans he.symm)
      obtain ⟨c', hc', hcc⟩ := ih hn hout ((computes_iff_of_ok hm c).mpr hc) hl
      exact ⟨c', (computes_iff_of_ok hm' c').mp hc', hcc⟩

theorem exists_computes_of_simulation {m m' : Machine σ} (h : Simulation R f) (hs : R m.state m'.state)
    {c' : Conclusion σ} (hc : m'.Computes c') : ∃ c, m.Computes c := by
  obtain ⟨fuel, ending, hrun, _⟩ := hc
  induction fuel generalizing m m' with
  | zero => cases hrun
  | succ fuel ih =>
    cases hm : step m with
    | error fault next => exact ⟨_, computes_of_step (congrArg stepConclusion? hm)⟩
    | ok running next =>
      cases running with
      | false => exact ⟨_, computes_of_step (congrArg stepConclusion? hm)⟩
      | true =>
        have hi := inStep h hs
        rw [hm] at hi
        generalize hm' : step m' = r at hi
        cases hi with
        | ok _ _ _ hn =>
          obtain ⟨c, hc⟩ := ih hn ((run_of_running hm' fuel).symm.trans hrun)
          exact ⟨c, (computes_iff_of_ok hm c).mp hc⟩

end Machine

end StackMachine
