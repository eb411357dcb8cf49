import StackMachine.Proofs.Runs

namespace StackMachine

theorem Journal.silent_recordAll (events : List Event) : silent.recordAll events = silent := by
  induction events with
  | nil => rfl
  | cons e events ih => exact ih

theorem Action.exists_fetchOpcode_error {s : State} (h : s.nextOpcode? = none) :
    ∃ fault t, fetchOpcode s = .error fault t := by
  cases hc : s.rom.cell? s.pc with
  | none => exact ⟨_, _, fetchOpcode_error (fetch_none hc)⟩
  | some cell =>
    cases cell with
    | label name => exact ⟨_, _, fetchOpcode_error (fetch_label hc)⟩
    | number code =>
      cases ho : Opcode.ofNumber? code with
      | none => exact ⟨_, _, fetchOpcode_none hc ho⟩
      | some op =>
        rw [(s.nextOpcode?_eq_some_iff op).mpr ⟨code, hc, ho⟩] at h
        cases h

structure Conclusion (σ : Type) where
  fault? : Option Fault
  state : State
  output : σ
  cycles : Nat

namespace Machine

variable {σ : Type}

def conclude (m : Machine σ) (fault? : Option Fault) : Conclusion σ := ⟨fault?, m.state, m.output, m.cycles⟩

def conclusion : Ending σ → Conclusion σ
  | .ok _ m => m.conclude none
  | .error fault m => m.conclude (some fault)

def stepConclusion? : EStateM.Result Fault (Machine σ) Bool → Option (Conclusion σ)
  | .ok true _ => none
  | .ok false m => some (m.conclude none)
  | .error fault m => some (m.conclude (some fault))

def quiet (m : Machine σ) : Machine σ := { m with journal := .silent }

def quietly {α : Type} : EStateM.Result Fault (Machine σ) α → EStateM.Result Fault (Machine σ) α
  | .ok a m => .ok a m.quiet
  | .error fault m => .error fault m.quiet

theorem conclusion_quietly (ending : Ending σ) : conclusion (quietly ending) = conclusion ending := by
  cases ending <;> rfl

variable [Sink σ]

theorem perform_quiet (m : Machine σ) (effect : Effect) : m.quiet.perform effect = (m.perform effect).quiet := by
  cases effect with
  | quiet => rfl
  | emitted value =>
    simp only [perform, quiet, Journal.silent_recordAll]
  | jumped source target => rfl

theorem completed_quiet (m : Machine σ) (op : Opcode) (effect : Effect) (s : State) :
    m.quiet.completed op effect s = (m.completed op effect s).quiet := by
  have h := perform_quiet { m.record (.cycle m.state.pc op m.state.stack) with state := s } effect
  exact congrArg (fun n => { n with state := s.settle, cycles := m.cycles + 1 }) h

theorem step_quiet (m : Machine σ) : step m.quiet = quietly (step m) := by
  cases hr : m.state.halted with
  | true =>
    have hq : m.quiet.state.halted = true := hr
    rw [step_of_halted hr, step_of_halted hq, quietly]
  | false =>
    have hq : m.quiet.state.halted = false := hr
    cases hop : m.state.nextOpcode? with
    | none =>
      obtain ⟨fault, s, hf⟩ := Action.exists_fetchOpcode_error hop
      have hf' : Action.fetchOpcode m.quiet.state = .error fault s := hf
      rw [step_of_cycle_error hr (cycle_of_fetch_error hf), step_of_cycle_error hq (cycle_of_fetch_error hf')]
      rfl
    | some op =>
      have hop' : m.quiet.state.nextOpcode? = some op := hop
      cases he : op.instruction.execute m.state.advance with
      | ok effect s =>
        rw [step_of_cycle_ok hr (cycle_of_execute_ok hop he), step_of_cycle_ok hq (cycle_of_execute_ok hop' he),
          completed_quiet]
        rfl
      | error fault s =>
        rw [step_of_cycle_error hr (cycle_of_execute_error hop he),
          step_of_cycle_error hq (cycle_of_execute_error hop' he)]
        rfl

theorem run_quiet (fuel : Nat) (m : Machine σ) : m.quiet.run fuel = (m.run fuel).map quietly := by
  induction fuel generalizing m with
  | zero => rfl
  | succ fuel ih =>
    have hq := step_quiet m
    cases hs : step m with
    | error fault next =>
      rw [hs] at hq
      rw [run_of_fault hs, run_of_fault hq]
      rfl
    | ok running next =>
      rw [hs] at hq
      cases running with
      | true => rw [run_of_running hs, run_of_running hq, ih]
      | false =>
        rw [run_of_stopped hs, run_of_stopped hq]
        rfl

theorem runTraced_quiet (fuel : Nat) (m : Machine σ) : m.quiet.run fuel = (m.runTraced fuel).map quietly := by
  induction fuel generalizing m with
  | zero => rfl
  | succ fuel ih =>
    have hq := step_quiet m
    cases hs : step m with
    | error fault next =>
      rw [hs] at hq
      rw [run_of_fault hq, runTraced, hs]
      rfl
    | ok running next =>
      rw [hs] at hq
      cases running with
      | true =>
        rw [run_of_running hq, runTraced, hs]
        exact ih (next.record _)
      | false =>
        rw [run_of_stopped hq, runTraced, hs]
        rfl

/-- `Steps k m next`: the next `k` steps of `m` all leave it running, and lead to `next`. -/
inductive Steps : Nat → Machine σ → Machine σ → Prop
  | zero (m : Machine σ) : Steps 0 m m
  | succ {k : Nat} {m next last : Machine σ} (h : step m = .ok true next) (hs : Steps k next last) :
      Steps (k + 1) m last

theorem Steps.run {k : Nat} {m next : Machine σ} (h : Steps k m next) (fuel : Nat) :
    next.run fuel = m.run (fuel + k) := by
  induction h with
  | zero m => rfl
  | succ h hs ih => rw [ih, Nat.add_succ, run_of_running h]

/-- A driver with fuel returns what it returns with enough of it, and never returns if no fuel is enough. -/
def Returns (drive : Nat → Option (Ending σ)) (c : Conclusion σ) : Prop :=
  ∃ fuel ending, drive fuel = some ending ∧ conclusion ending = c

def Computes (m : Machine σ) : Conclusion σ → Prop := Returns fun fuel => m.run fuel

def Traces (m : Machine σ) : Conclusion σ → Prop := Returns fun fuel => m.runTraced fuel

def StepsTo (m : Machine σ) (c : Conclusion σ) : Prop :=
  ∃ k last, Steps k m last ∧ stepConclusion? (step last) = some c

omit [Sink σ] in
theorem returns_quietly (drive : Nat → Option (Ending σ)) (c : Conclusion σ) :
    Returns (fun fuel => (drive fuel).map quietly) c ↔ Returns drive c := by
  constructor
  · rintro ⟨fuel, _, h, rfl⟩
    obtain ⟨ending, he, rfl⟩ := Option.map_eq_some_iff.mp h
    exact ⟨fuel, ending, he, (conclusion_quietly ending).symm⟩
  · rintro ⟨fuel, ending, h, rfl⟩
    exact ⟨fuel, quietly ending, Option.map_eq_some_iff.mpr ⟨ending, h, rfl⟩, conclusion_quietly ending⟩

theorem quiet_computes_iff (m : Machine σ) (c : Conclusion σ) : m.quiet.Computes c ↔ m.Computes c := by
  simp only [Computes, run_quiet]
  exact returns_quietly _ c

theorem quiet_computes_iff_traces (m : Machine σ) (c : Conclusion σ) : m.quiet.Computes c ↔ m.Traces c := by
  simp only [Computes, runTraced_quiet]
  exact returns_quietly _ c

theorem Computes.unique {m : Machine σ} {c d : Conclusion σ} (hc : m.Computes c) (hd : m.Computes d) : c = d := by
  obtain ⟨fuel, ending, hr, rfl⟩ := hc
  obtain ⟨fuel', ending', hr', rfl⟩ := hd
  have h := run_add hr fuel'
  rw [Nat.add_comm, run_add hr' fuel] at h
  cases h
  rfl

theorem Steps.computes_iff {k : Nat} {m next : Machine σ} (h : Steps k m next) (c : Conclusion σ) :
    next.Computes c ↔ m.Computes c := by
  constructor
  · rintro ⟨fuel, ending, hr, hc⟩
    exact ⟨fuel + k, ending, (h.run fuel).symm.trans hr, hc⟩
  · rintro ⟨fuel, ending, hr, hc⟩
    exact ⟨fuel, ending, (h.run fuel).trans (run_add hr k), hc⟩

theorem stepsTo_of_run {fuel : Nat} {m : Machine σ} {ending : Ending σ} (h : m.run fuel = some ending) :
    m.StepsTo (conclusion ending) := by
  induction fuel generalizing m with
  | zero => cases h
  | succ fuel ih =>
    cases hs : step m with
    | error fault next =>
      rw [run_of_fault hs] at h
      cases h
      exact ⟨0, m, .zero m, by rw [hs]; rfl⟩
    | ok running next =>
      cases running with
      | true =>
        rw [run_of_running hs] at h
        obtain ⟨k, last, hk, hc⟩ := ih h
        exact ⟨k + 1, last, .succ hs hk, hc⟩
      | false =>
        rw [run_of_stopped hs] at h
        cases h
        exact ⟨0, m, .zero m, by rw [hs]; rfl⟩

theorem computes_of_step {m : Machine σ} {c : Conclusion σ} (h : stepConclusion? (step m) = some c) :
    m.Computes c := by
  cases hs : step m with
  | error fault next =>
    rw [hs] at h
    exact ⟨1, _, run_of_fault hs 0, Option.some.inj h⟩
  | ok running next =>
    rw [hs] at h
    cases running with
    | true => cases h
    | false => exact ⟨1, _, run_of_stopped hs 0, Option.some.inj h⟩

theorem computes_iff_stepsTo (m : Machine σ) (c : Conclusion σ) : m.Computes c ↔ m.StepsTo c := by
  constructor
  · rintro ⟨fuel, ending, hr, rfl⟩
    exact stepsTo_of_run hr
  · rintro ⟨k, last, hk, hc⟩
    exact (hk.computes_iff c).mp (computes_of_step hc)

/-- The journals may differ: what is reported, and what of it is kept, has no part in what is returned. -/
theorem drivers_agree (program : Program) (output : σ) (journal journal' : Journal) :
    (∀ c, (start program output journal).Computes c ↔ (start program output journal').Traces c) ∧
      (∀ c, (start program output journal).Computes c ↔ (start program output journal).StepsTo c) ∧
      (∀ c d, (start program output journal).Computes c → (start program output journal).Computes d → c = d) ∧
      ∀ k next, Steps k (start program output journal) next →
        ∀ c, next.Computes c ↔ (start program output journal).Computes c := by
  refine ⟨?_, computes_iff_stepsTo _, fun c d hc hd => hc.unique hd, fun k next h c => h.computes_iff c⟩
  intro c
  calc (start program output journal).Computes c
      ↔ (start program output journal).quiet.Computes c := (quiet_computes_iff _ c).symm
    _ ↔ (start program output journal').quiet.Computes c := Iff.rfl
    _ ↔ (start program output journal').Traces c := quiet_computes_iff_traces _ c

theorem drivers_agree_two_nops : ∃ next c,
    Steps 1 (start ((Program.empty.emit .nop).emit .nop) ({} : Collector) .silent) next ∧ next.Computes c ∧
      (start ((Program.empty.emit .nop).emit .nop) ({} : Collector) .silent).Computes c ∧
      (start ((Program.empty.emit .nop).emit .nop) ({} : Collector) ⟨⟨some .trace, true⟩, []⟩).Traces c := by
  let m := start ((Program.empty.emit .nop).emit .nop) ({} : Collector) .silent
  have hfirst : m.state.nextOpcode? = some .nop := State.nextOpcode?_of_number rfl
  have hs : step m = .ok true (m.completed .nop .quiet m.state.advance) :=
    step_of_cycle_ok rfl (cycle_of_execute_ok hfirst rfl)
  have hlast : (m.completed .nop .quiet m.state.advance).state.nextOpcode? = some .nop :=
    State.nextOpcode?_of_number rfl
  have hn : step (m.completed .nop .quiet m.state.advance) = .ok false _ :=
    step_of_cycle_ok rfl (cycle_of_execute_ok hlast rfl)
  obtain ⟨htraced, _, _, hsteps⟩ := drivers_agree ((Program.empty.emit .nop).emit .nop) ({} : Collector) .silent
    ⟨⟨some .trace, true⟩, []⟩
  have hk : Steps 1 m (m.completed .nop .quiet m.state.advance) := .succ hs (.zero _)
  have hc := computes_of_step (congrArg stepConclusion? hn)
  have hm := (hsteps 1 _ hk _).mp hc
  exact ⟨_, _, hk, hc, hm, (htraced _).mp hm⟩

end Machine

end StackMachine
