import StackMachine.Proofs.Outcomes

namespace StackMachine

def State.settle (s : State) : State := { s with halted := s.halted || s.pastEnd }

def Effect.values : Effect → List Number
  | emitted value => [value]
  | _ => []

def Sink.accept {σ : Type} [Sink σ] (output : σ) (values : List Number) : σ :=
  values.foldl (fun sink value => (emit sink value).1) output

namespace State

theorem nextOpcode?_eq_some_iff (s : State) (op : Opcode) : s.nextOpcode? = some op ↔
    ∃ code, s.rom.cell? s.pc = some (.number code) ∧ Opcode.ofNumber? code = some op := by
  simp only [nextOpcode?, Cell.opcode?, Option.bind_eq_some_iff]
  constructor
  · rintro ⟨cell, hc, code, hn, ho⟩
    cases cell with
    | number x =>
      cases hn
      exact ⟨code, hc, ho⟩
    | label name => cases hn
  · rintro ⟨code, hc, ho⟩
    exact ⟨.number code, hc, code, rfl, ho⟩

theorem nextOpcode?_of_number {s : State} {op : Opcode} (h : s.rom.cell? s.pc = some (.number op.number)) :
    s.nextOpcode? = some op :=
  (s.nextOpcode?_eq_some_iff op).mpr ⟨op.number, h, op.ofNumber?_number⟩

end State

namespace Action

theorem fetchOpcode_some {s : State} {op : Opcode} (h : s.nextOpcode? = some op) :
    fetchOpcode s = .ok op s.advance := by
  obtain ⟨code, hc, ho⟩ := (s.nextOpcode?_eq_some_iff op).mp h
  rw [fetchOpcode, bind_ok (fetch_number hc), ho]
  rfl

theorem fetchOpcode_none {s : State} {code : Number} (h : s.rom.cell? s.pc = some (.number code))
    (hc : Opcode.ofNumber? code = none) : fetchOpcode s = .error (.illegalOpcode code) s.advance := by
  rw [fetchOpcode, bind_ok (fetch_number h), hc]
  rfl

theorem fetchOpcode_error {s t : State} {fault : Fault} (h : fetch s = .error fault t) :
    fetchOpcode s = .error fault t := by
  rw [fetchOpcode, bind_error h]

end Action

namespace Machine

variable {σ : Type}

theorem act_ok {α : Type} {action : Action α} {m : Machine σ} {a : α} {s : State} (h : action m.state = .ok a s) :
    act action m = .ok a { m with state := s } := by
  simp only [act, h]

theorem act_error {α : Type} {action : Action α} {m : Machine σ} {fault : Fault} {s : State}
    (h : action m.state = .error fault s) : act action m = .error fault { m with state := s } := by
  simp only [act, h]

variable [Sink σ]

def completed (m : Machine σ) (op : Opcode) (effect : Effect) (s : State) : Machine σ :=
  let next := { m.record (.cycle m.state.pc op m.state.stack) with state := s }.perform effect
  { next with state := s.settle, cycles := m.cycles + 1 }

theorem completed_output (m : Machine σ) (op : Opcode) (effect : Effect) (s : State) :
    (m.completed op effect s).output = Sink.accept m.output effect.values := by
  cases effect <;> rfl

/-- `Cycle m r`: a machine `m` that has not halted ends its next step with `r`. -/
inductive Cycle (m : Machine σ) : EStateM.Result Fault (Machine σ) Bool → Prop
  | overrun (h : m.state.rom.cell? m.state.pc = none) :
      Cycle m (.error (.romOverrun m.state.pc m.state.rom.size) m)
  | label {name : String} (h : m.state.rom.cell? m.state.pc = some (.label name)) :
      Cycle m (.error (.illegalValue m.state.pc name) { m with state := m.state.advance })
  | illegalOpcode {code : Number} (h : m.state.rom.cell? m.state.pc = some (.number code))
      (hc : Opcode.ofNumber? code = none) :
      Cycle m (.error (.illegalOpcode code) { m with state := m.state.advance })
  | fault {op : Opcode} {fault : Fault} {s : State} (h : m.state.nextOpcode? = some op)
      (he : op.instruction.Ends m.state.advance (.error fault s)) :
      Cycle m (.error fault { m.record (.cycle m.state.pc op m.state.stack) with state := s })
  | complete {op : Opcode} {effect : Effect} {s : State} (h : m.state.nextOpcode? = some op)
      (he : op.instruction.Ends m.state.advance (.ok effect s)) :
      Cycle m (.ok (!s.settle.halted) (m.completed op effect s))

theorem step_of_halted {m : Machine σ} (h : m.state.halted = true) : step m = .ok false m := by
  rw [step, bind_get, if_pos h]
  rfl

theorem step_of_cycle_error {m next : Machine σ} {fault : Fault} (h : m.state.halted = false)
    (hc : cycle m = .error fault next) : step m = .error fault next := by
  rw [step, bind_get, if_neg (by simp [h]), bind_error hc]

theorem step_of_cycle_ok {m next : Machine σ} (h : m.state.halted = false) (hc : cycle m = .ok () next) :
    step m = .ok (!next.state.halted) next := by
  rw [step, bind_get, if_neg (by simp [h]), bind_ok hc]
  rfl

theorem cycle_of_fetch_error {m : Machine σ} {fault : Fault} {s : State}
    (h : Action.fetchOpcode m.state = .error fault s) : cycle m = .error fault { m with state := s } := by
  rw [cycle, bind_get, bind_error (act_error h)]

theorem step_of_overrun {m : Machine σ} (hr : m.state.halted = false) (h : m.state.rom.cell? m.state.pc = none) :
    step m = .error (.romOverrun m.state.pc m.state.rom.size) m :=
  step_of_cycle_error hr (cycle_of_fetch_error (Action.fetchOpcode_error (Action.fetch_none h)))

theorem step_of_label {m : Machine σ} (hr : m.state.halted = false) {name : String}
    (h : m.state.rom.cell? m.state.pc = some (.label name)) :
    step m = .error (.illegalValue m.state.pc name) { m with state := m.state.advance } :=
  step_of_cycle_error hr (cycle_of_fetch_error (Action.fetchOpcode_error (Action.fetch_label h)))

theorem execute_error {m : Machine σ} {op : Opcode} {fault : Fault} {s : State}
    (h : op.instruction.execute m.state = .error fault s) : execute op m = .error fault { m with state := s } := by
  rw [execute, Action.execute, bind_error (act_error h)]

theorem execute_ok {m : Machine σ} {op : Opcode} {effect : Effect} {s : State}
    (h : op.instruction.execute m.state = .ok effect s) :
    execute op m = .ok () ({ m with state := s }.perform effect) := by
  rw [execute, Action.execute, bind_ok (act_ok h)]
  rfl

theorem cycle_of_execute_error {m : Machine σ} {op : Opcode} {fault : Fault} {s : State}
    (h : m.state.nextOpcode? = some op) (he : op.instruction.execute m.state.advance = .error fault s) :
    cycle m = .error fault { m.record (.cycle m.state.pc op m.state.stack) with state := s } := by
  rw [cycle, bind_get, bind_ok (act_ok (Action.fetchOpcode_some h)), bind_modify, bind_error (execute_error he)]
  rfl

theorem cycle_of_execute_ok {m : Machine σ} {op : Opcode} {effect : Effect} {s : State}
    (h : m.state.nextOpcode? = some op) (he : op.instruction.execute m.state.advance = .ok effect s) :
    cycle m = .ok () (m.completed op effect s) := by
  rw [cycle, bind_get, bind_ok (act_ok (Action.fetchOpcode_some h)), bind_modify, bind_ok (execute_ok he)]
  cases effect <;> rfl

theorem step_of_ends {m : Machine σ} {op : Opcode} {effect : Effect} {s : State} (h : m.state.halted = false)
    (hop : m.state.nextOpcode? = some op) (he : op.instruction.Ends m.state.advance (.ok effect s)) :
    step m = .ok (!s.settle.halted) (m.completed op effect s) :=
  step_of_cycle_ok h (cycle_of_execute_ok hop he.execute_eq)

theorem step_of_nextOpcode {m : Machine σ} {op : Opcode} (h : m.state.halted = false)
    (hop : m.state.nextOpcode? = some op) :
    (∃ effect s, op.instruction.Ends m.state.advance (.ok effect s) ∧
        step m = .ok (!s.settle.halted) (m.completed op effect s)) ∨
      ∃ fault s, op.instruction.Ends m.state.advance (.error fault s) ∧
        step m = .error fault { m.record (.cycle m.state.pc op m.state.stack) with state := s } := by
  have he := op.instruction.execute_ends m.state.advance
  cases hr : op.instruction.execute m.state.advance with
  | ok effect s => exact .inl ⟨effect, s, hr ▸ he, step_of_cycle_ok h (cycle_of_execute_ok hop hr)⟩
  | error fault s => exact .inr ⟨fault, s, hr ▸ he, step_of_cycle_error h (cycle_of_execute_error hop hr)⟩

theorem step_cycle {m : Machine σ} (h : m.state.halted = false) : Cycle m (step m) := by
  cases hc : m.state.rom.cell? m.state.pc with
  | none =>
    rw [step_of_overrun h hc]
    exact .overrun hc
  | some cell =>
    cases cell with
    | label name =>
      rw [step_of_label h hc]
      exact .label hc
    | number code =>
      cases ho : Opcode.ofNumber? code with
      | none =>
        rw [step_of_cycle_error h (cycle_of_fetch_error (Action.fetchOpcode_none hc ho))]
        exact .illegalOpcode hc ho
      | some op =>
        have hop : m.state.nextOpcode? = some op := (m.state.nextOpcode?_eq_some_iff op).mpr ⟨code, hc, ho⟩
        rcases step_of_nextOpcode h hop with ⟨effect, s, he, hs⟩ | ⟨fault, s, he, hs⟩
        · rw [hs]
          exact .complete hop he
        · rw [hs]
          exact .fault hop he

end Machine

end StackMachine
