import StackMachine.Proofs.Checks
import StackMachine.Proofs.Histories

/-!
The machine with checks, for words that reach up to a limit. Whatever its program and whatever is called, it stops for
no other reason than a fault, as long as the limit is above the size of the program. Neither the count of the cycles
nor the depth of the stack is bounded here.
-/

namespace StackMachine

inductive Stop where
  | fault (fault : Fault)
  | trap (trap : Trap)

abbrev Guarded (τ : Type) := EStateM Stop τ

namespace Action

theorem length_of_popMany {count : Nat} {operands : List Number} (h : ∃ s t, popMany count s = .ok operands t) :
    operands.length = count := by
  obtain ⟨s, t, h⟩ := h
  by_cases hd : s.stack.length < count
  · rw [popMany_underflow hd] at h
    cases h
  · obtain ⟨values, rest, hs, hl⟩ := Stack.exists_operands (Nat.not_lt.mp hd)
    rw [popMany_operands hs hl] at h
    cases h
    exact hl

end Action

theorem Machine.perform_state {σ : Type} [Sink σ] (m : Machine σ) (effect : Effect) :
    (m.perform effect).state = m.state := by
  cases effect <;> rfl

namespace Guarded

section Agreement

variable {τ α β ε : Type}

def lift : EStateM.Result Fault τ α → EStateM.Result Stop τ α
  | .ok a s => .ok a s
  | .error fault s => .error (.fault fault) s

def plain (action : EStateM Fault τ α) : Guarded τ α := fun s => lift (action s)

def check (c : Checked α) : Guarded τ α := fun s =>
  match c with
  | .ok a => .ok a s
  | .error trap => .error (.trap trap) s

def final : EStateM.Result ε τ α → τ
  | .ok _ s => s
  | .error _ s => s

/-- On the states with the invariant no check of `x` fails, and `x` does what `y` does; the invariant is kept. -/
def Agrees (inv : τ → Prop) (x : Guarded τ α) (y : EStateM Fault τ α) : Prop :=
  ∀ s, inv s → x s = plain y s ∧ inv (final (y s))

variable {inv : τ → Prop}

theorem Agrees.bind {x : Guarded τ α} {y : EStateM Fault τ α} {f : α → Guarded τ β} {g : α → EStateM Fault τ β}
    (hx : Agrees inv x y) (hf : ∀ a, (∃ s t, y s = .ok a t) → Agrees inv (f a) (g a)) :
    Agrees inv (x >>= f) (y >>= g) := by
  intro s hs
  obtain ⟨he, hi⟩ := hx s hs
  cases hy : y s with
  | ok a t =>
    rw [plain, hy] at he
    rw [hy] at hi
    rw [plain, bind_ok he, bind_ok hy]
    exact hf a ⟨s, t, hy⟩ t hi
  | error fault t =>
    rw [plain, hy] at he
    rw [hy] at hi
    rw [plain, bind_error he, bind_error hy]
    exact ⟨rfl, hi⟩

theorem agrees_plain {y : EStateM Fault τ α} (h : ∀ s, inv s → inv (final (y s))) : Agrees inv (plain y) y :=
  fun s hs => ⟨rfl, h s hs⟩

theorem agrees_pure (a : α) : Agrees inv (pure a) (pure a) := fun _ hs => ⟨rfl, hs⟩

theorem agrees_get : Agrees inv get get := fun _ hs => ⟨rfl, hs⟩

theorem agrees_modify {g : τ → τ} (h : ∀ s, inv s → inv (g s)) : Agrees inv (modify g) (modify g) :=
  fun s hs => ⟨rfl, h s hs⟩

theorem final_lift (r : EStateM.Result Fault τ α) : final (lift r) = final r := by
  cases r <;> rfl

theorem check_ok_bind (a : α) (f : α → Guarded τ β) : check (.ok a) >>= f = f a := rfl

end Agreement

def setCounter (limit n : Nat) : Guarded State Unit := do
  let pc ← check (Checked.word limit n)
  modify fun s => { s with pc }

def fetch (limit : Nat) : Guarded State Number := do
  let s ← get
  match s.rom.cell? s.pc with
  | none => throw (.fault (.romOverrun s.pc s.rom.size))
  | some cell =>
    setCounter limit (s.pc + 1)
    match cell with
    | .number value => return value
    | .label name => throw (.fault (.illegalValue s.pc name))

def jumpTo (limit : Nat) (target : Number) : Guarded State Unit := do
  let s ← get
  match target.toIndex?.filter (· < s.rom.size) with
  | some index => setCounter limit index
  | none => throw (.fault (.illegalJumpTarget target s.rom.size))

def jump (limit : Nat) (offset : Number) : Guarded State Unit := fun s => jumpTo limit (Number.ofNat s.pc + offset) s

def popMany (count : Nat) : Guarded State (List Number) := do
  let s ← get
  let values := s.stack.bottomFirst
  if values.length < count then
    throw (.fault (.stackUnderflow count values.length))
  else
    let start ← check (Checked.difference values.length count)
    let operands ← check (Checked.suffix values start)
    let operands ← check (Checked.buffer operands)
    set { s with stack := (values.take start).reverse }
    return operands

def perform (limit : Nat) : Checked.Instruction → Guarded State Effect
  | .nop => plain Instruction.nop.execute
  | .load => plain Instruction.load.execute
  | .store => plain Instruction.store.execute
  | .halt => plain Instruction.halt.execute
  | .out => plain Instruction.out.execute
  | .push => do
    let literal ← fetch limit
    plain (Action.push literal)
    return .quiet
  | .operate operation => do
    let operands ← popMany operation.arity
    let results ← check (operation.apply operands)
    plain (Action.pushAll results)
    return .quiet
  | .branch condition => do
    let offset ← plain Action.pop
    let operands ← popMany condition.arity
    if ← check (condition.test operands) then
      let source := (← get).pc
      jump limit offset
      return .jumped source (← get).pc
    else
      return .quiet

def execute (limit : Nat) (op : Opcode) : Guarded State Effect := do
  let instruction ← check (Checked.index Checked.table op.code)
  perform limit instruction

def fetchOpcode (limit : Nat) : Guarded State Opcode := do
  let code ← fetch limit
  match Opcode.ofNumber? code with
  | some opcode => return opcode
  | none => throw (.fault (.illegalOpcode code))

section Actions

variable {program : Program} {limit : Nat}

theorem setCounter_of_le {n : Nat} (h : n ≤ limit) (s : State) : setCounter limit n s = .ok () { s with pc := n } := by
  rw [setCounter, Checked.word_of_le h]
  rfl

variable (h : program.size ≤ limit)

include h

theorem fetch_agrees : Agrees (·.rom = program) (fetch limit) Action.fetch := by
  rintro s rfl
  cases hc : s.rom.cell? s.pc with
  | none =>
    rw [plain, Action.fetch_none hc, fetch, bind_get, hc]
    exact ⟨rfl, rfl⟩
  | some cell =>
    have hn : s.pc + 1 ≤ limit := Nat.le_trans (Program.lt_size_of_cell? hc) h
    rw [fetch, bind_get, hc]
    cases cell with
    | number value =>
      rw [plain, Action.fetch_number hc]
      exact ⟨bind_ok (setCounter_of_le hn s), rfl⟩
    | label name =>
      rw [plain, Action.fetch_label hc]
      exact ⟨bind_ok (setCounter_of_le hn s), rfl⟩

theorem jumpTo_agrees (target : Number) : Agrees (·.rom = program) (jumpTo limit target) (Action.jumpTo target) := by
  rintro s rfl
  rw [plain, jumpTo, bind_get, Action.jumpTo]
  cases hi : target.toIndex?.filter (· < s.rom.size) with
  | none => exact ⟨rfl, rfl⟩
  | some index =>
    have hlt := ((Program.filter_toIndex?_eq_some_iff s.rom target index).mp hi).2.1
    exact ⟨setCounter_of_le (Nat.le_trans (Nat.le_of_lt hlt) h) s, rfl⟩

theorem jump_agrees (offset : Number) : Agrees (·.rom = program) (jump limit offset) (Action.jump offset) := by
  intro s hs
  have hj := jumpTo_agrees h (Number.ofNat s.pc + offset) s hs
  rw [plain] at hj ⊢
  rw [jump, Action.jump]
  exact hj

theorem fetchOpcode_agrees : Agrees (·.rom = program) (fetchOpcode limit) Action.fetchOpcode := by
  refine (fetch_agrees h).bind fun code _ => ?_
  cases Opcode.ofNumber? code with
  | none => exact fun _ hs => ⟨rfl, hs⟩
  | some opcode => exact agrees_pure opcode

omit h in
theorem popMany_agrees {count : Nat} (hc : count ≤ Checked.operandRoom) :
    Agrees (·.rom = program) (popMany count) (Action.popMany count) := by
  intro s hs
  have hl : s.stack.bottomFirst.length = s.stack.length := List.length_reverse
  rw [plain, popMany, bind_get, hl]
  by_cases hd : s.stack.length < count
  · rw [if_pos hd, Action.popMany_underflow hd]
    exact ⟨rfl, hs⟩
  · obtain ⟨operands, rest, ho, rfl⟩ := Stack.exists_operands (Nat.not_lt.mp hd)
    have hb : s.stack.bottomFirst = rest.bottomFirst ++ operands := Stack.bottomFirst_of_append operands ho
    have hstart : s.stack.length - operands.length = rest.bottomFirst.length := by
      rw [← hl, hb, List.length_append, Nat.add_sub_cancel]
    have hle : rest.bottomFirst.length ≤ s.stack.bottomFirst.length := by
      rw [hb, List.length_append]
      exact Nat.le_add_right _ _
    rw [if_neg hd, Checked.difference_of_le (Nat.not_lt.mp hd), check_ok_bind, hstart, Checked.suffix_of_le hle,
      check_ok_bind, hb, List.drop_left, Checked.buffer_of_le hc, check_ok_bind, List.take_left,
      Action.popMany_operands ho rfl, Stack.bottomFirst, List.reverse_reverse]
    exact ⟨rfl, hs⟩

omit h in
theorem agrees_execute (i : Instruction) : Agrees (·.rom = program) (plain i.execute) i.execute := by
  apply agrees_plain
  rintro s rfl
  have he := i.execute_ends s
  generalize i.execute s = r at he
  cases he <;> rfl

omit h in
theorem pop_agrees : Agrees (·.rom = program) (plain Action.pop) Action.pop := by
  apply agrees_plain
  intro s hs
  cases hv : s.stack with
  | nil => rwa [Action.pop_nil hv]
  | cons value rest => rwa [Action.pop_cons hv]

omit h in
theorem operate_agrees {c : Checked.Operation} {operation : Operation} (hc : c.Implements operation) :
    Agrees (·.rom = program) (perform limit (.operate c)) (Instruction.operate operation).execute := by
  rw [perform, hc.arity]
  refine (popMany_agrees hc.arity_le).bind fun operands ho => ?_
  rw [(hc.apply operands (Action.length_of_popMany ho)).1, check_ok_bind]
  refine (agrees_plain fun _ hs => hs).bind fun _ _ => ?_
  exact agrees_pure _

theorem branch_agrees {c : Checked.Condition} {condition : Condition} (hc : c.Implements condition) :
    Agrees (·.rom = program) (perform limit (.branch c)) (Instruction.branch condition).execute := by
  rw [perform, hc.arity]
  refine pop_agrees.bind fun offset _ => ?_
  refine (popMany_agrees (Nat.le_of_lt hc.arity_lt)).bind fun operands ho => ?_
  rw [hc.test operands (Action.length_of_popMany ho), check_ok_bind]
  split
  · refine agrees_get.bind fun before _ => ?_
    refine (jump_agrees h offset).bind fun _ _ => ?_
    refine agrees_get.bind fun after _ => ?_
    exact agrees_pure _
  · exact agrees_pure _

theorem perform_agrees {c : Checked.Instruction} {i : Instruction} (hc : c.Implements i) :
    Agrees (·.rom = program) (perform limit c) i.execute := by
  cases hc with
  | nop => exact agrees_execute _
  | load => exact agrees_execute _
  | store => exact agrees_execute _
  | halt => exact agrees_execute _
  | out => exact agrees_execute _
  | push =>
    refine (fetch_agrees h).bind fun literal _ => ?_
    refine (agrees_plain fun _ hs => hs).bind fun _ _ => ?_
    exact agrees_pure _
  | operate hc => exact operate_agrees hc
  | branch hc => exact branch_agrees h hc

theorem execute_agrees (op : Opcode) : Agrees (·.rom = program) (execute limit op) (Action.execute op) := by
  obtain ⟨i, hi, hc⟩ := Checked.exists_implements op
  rw [execute, hi, check_ok_bind]
  exact perform_agrees h hc

end Actions

section Machines

variable {σ α : Type}

def act (action : Guarded State α) : Guarded (Machine σ) α := fun m =>
  match action m.state with
  | .ok a state => .ok a { m with state }
  | .error stop state => .error stop { m with state }

theorem Agrees.act {inv : State → Prop} {x : Guarded State α} {y : Action α} (h : Agrees inv x y) :
    Agrees (fun m : Machine σ => inv m.state) (act x) (Machine.act y) := by
  intro m hm
  obtain ⟨he, hi⟩ := h m.state hm
  rw [plain, Guarded.act, he]
  cases hy : y m.state with
  | ok a s =>
    rw [hy] at hi
    rw [Machine.act_ok hy, plain, hy]
    exact ⟨rfl, hi⟩
  | error fault s =>
    rw [hy] at hi
    rw [Machine.act_error hy, plain, hy]
    exact ⟨rfl, hi⟩

theorem final_ending (ending : Ending σ) : final ending = ending.machine := by
  cases ending <;> rfl

variable [Sink σ]

def dispatch (limit : Nat) (opcode : Opcode) : Guarded (Machine σ) Unit := do
  let effect ← act (execute limit opcode)
  modify (·.perform effect)

def cycle (limit : Nat) : Guarded (Machine σ) Unit := do
  let pc := (← get).state.pc
  let opcode ← act (fetchOpcode limit)
  modify fun m => m.record (.cycle pc opcode m.state.stack)
  dispatch limit opcode
  act (plain Action.haltAtEnd)
  modify fun m => { m with cycles := m.cycles + 1 }

def step (limit : Nat) : Guarded (Machine σ) Bool := do
  if (← get).state.halted then
    return false
  else
    cycle limit
    return !(← get).state.halted

def run (limit : Nat) : Nat → Machine σ → Option (EStateM.Result Stop (Machine σ) Unit)
  | 0, _ => none
  | fuel + 1, m =>
    match step limit m with
    | .ok true m => run limit fuel m
    | .ok false m => some (.ok () (m.record (.halted m.state.pc m.cycles)))
    | .error (.fault fault) m => some (.error (.fault fault) (m.record (.faulted m.state.pc m.cycles fault)))
    | .error (.trap trap) m => some (.error (.trap trap) m)

inductive Reaches (limit : Nat) (m : Machine σ) : Machine σ → Prop
  | none : Reaches limit m m
  | step {next : Machine σ} (h : Reaches limit m next) : Reaches limit m (final (step limit next))
  | run {fuel : Nat} {next : Machine σ} {ending : EStateM.Result Stop (Machine σ) Unit} (h : Reaches limit m next)
      (hr : run limit fuel next = some ending) : Reaches limit m (final ending)

variable {program : Program} {limit : Nat} (h : program.size ≤ limit)

include h

theorem dispatch_agrees (op : Opcode) :
    Agrees (fun m : Machine σ => m.state.rom = program) (dispatch limit op) (Machine.execute op) := by
  refine (execute_agrees h op).act.bind fun effect _ => ?_
  apply agrees_modify
  intro m hm
  rwa [Machine.perform_state]

theorem cycle_agrees : Agrees (fun m : Machine σ => m.state.rom = program) (cycle limit) Machine.cycle := by
  have hhalt : Agrees (·.rom = program) (plain Action.haltAtEnd) Action.haltAtEnd := agrees_plain fun _ hs => hs
  refine agrees_get.bind fun m _ => ?_
  refine (fetchOpcode_agrees h).act.bind fun opcode _ => ?_
  refine Agrees.bind (agrees_modify fun _ hm => hm) fun _ _ => ?_
  refine (dispatch_agrees h opcode).bind fun _ _ => ?_
  refine hhalt.act.bind fun _ _ => ?_
  exact agrees_modify fun _ hm => hm

theorem step_agrees : Agrees (fun m : Machine σ => m.state.rom = program) (step limit) Machine.step := by
  refine agrees_get.bind fun m _ => ?_
  split
  · exact agrees_pure false
  · refine (cycle_agrees h).bind fun _ _ => ?_
    refine agrees_get.bind fun next _ => ?_
    exact agrees_pure _

theorem run_eq (fuel : Nat) {m : Machine σ} (hm : m.state.rom = program) :
    run limit fuel m = (m.run fuel).map lift := by
  induction fuel generalizing m with
  | zero => rfl
  | succ fuel ih =>
    obtain ⟨he, hi⟩ := step_agrees h m hm
    rw [run, he, plain]
    cases hs : Machine.step m with
    | error fault next =>
      rw [Machine.run_of_fault hs]
      rfl
    | ok running next =>
      cases running with
      | true =>
        rw [hs] at hi
        rw [Machine.run_of_running hs]
        exact ih hi
      | false =>
        rw [Machine.run_of_stopped hs]
        rfl

theorem Reaches.sound {m next : Machine σ} (hm : m.state.Sound program) (hr : Reaches limit m next) :
    next.state.Sound program := by
  induction hr with
  | none => exact hm
  | @step next _ ih =>
    rw [(step_agrees h next ih.rom).1, plain, final_lift]
    cases hs : Machine.step next with
    | ok running last => exact Machine.step_ok_sound ih hs
    | error fault last => exact Machine.step_error_sound ih hs
  | @run fuel next _ _ hr ih =>
    rw [run_eq h fuel ih.rom] at hr
    obtain ⟨ending, he, rfl⟩ := Option.map_eq_some_iff.mp hr
    rw [final_lift, final_ending]
    exact Machine.run_sound ih he

end Machines

/-- No call on the machine or on its state fails a check, so that the answers are those without checks. -/
structure Safe {σ : Type} [Sink σ] (limit : Nat) (m : Machine σ) : Prop where
  step : step limit m = plain Machine.step m
  run : ∀ fuel, run limit fuel m = (m.run fuel).map lift
  fetch : fetch limit m.state = plain Action.fetch m.state
  jump : ∀ offset, jump limit offset m.state = plain (Action.jump offset) m.state
  execute : ∀ op, execute limit op m.state = plain (Action.execute op) m.state

theorem no_check_fails (limit : Nat) :
    (∀ program : Program, program.size < limit →
      (∀ {σ : Type} [Sink σ] (output : σ) (journal : Journal) (m : Machine σ),
        Reaches limit (Machine.start program output journal) m → Safe limit m) ∧
      Checked.disassemble limit program = .ok program.disassemble) ∧
      (∀ op : Opcode, ∃ i, Checked.index Checked.table op.code = .ok i ∧ i.Implements op.instruction) ∧
      ∀ source, Checked.ofListing source = .ok (Program.ofListing source) := by
  refine ⟨?_, Checked.exists_implements, Checked.ofListing_eq⟩
  intro program hlt
  refine ⟨?_, Checked.disassemble_eq hlt⟩
  intro σ _ output journal m hr
  have h := Nat.le_of_lt hlt
  have hm := (hr.sound h (State.initial_sound program)).rom
  constructor
  · exact (step_agrees h m hm).1
  · exact fun fuel => run_eq h fuel hm
  · exact (fetch_agrees h _ hm).1
  · exact fun offset => (jump_agrees h offset _ hm).1
  · exact fun op => (execute_agrees h op _ hm).1

theorem no_check_fails_truncatedPush : (Program.empty.emit .push).size < 2 ∧ ∃ m : Machine Collector,
    Reaches 2 (Machine.start (Program.empty.emit .push) {} .silent) m ∧ m.state.pc = 1 ∧
      step 2 m = .error (.fault (.romOverrun 1 1)) m ∧
      execute 2 .dupSecond m.state = .error (.fault (.stackUnderflow 2 0)) m.state := by
  have hop : (State.initial (Program.empty.emit .push)).nextOpcode? = some .push := State.nextOpcode?_of_number rfl
  have hf : Machine.step (Machine.start (Program.empty.emit .push) ({} : Collector) .silent) = .error _ _ :=
    Machine.step_of_cycle_error rfl (Machine.cycle_of_execute_error hop rfl)
  have hlt : (Program.empty.emit .push).size < 2 := by decide
  have hsafe := ((no_check_fails 2).1 _ hlt).1 ({} : Collector) .silent
  have hr : Reaches 2 (Machine.start (Program.empty.emit .push) ({} : Collector) .silent) _ := .step .none
  rw [(hsafe _ .none).step, plain, hf] at hr
  refine ⟨hlt, _, hr, rfl, ?_, ?_⟩
  · rw [(hsafe _ hr).step, plain, Machine.step_of_pc_eq_size rfl rfl]
    rfl
  · rw [(hsafe _ hr).execute]
    rfl

end Guarded

end StackMachine
