import StackMachine.Proofs.Agreement
import StackMachine.Proofs.Writing

/-!
What a step does apart from what it reports. A cycle is an action on states, and a sink only takes the values
that the cycle emits, so machines with different sinks go through the same states, and what a sink has become is
read off the values that a collector has kept.
-/

namespace StackMachine

namespace Action

def cycle : Action Effect := do
  let opcode ← fetchOpcode
  let effect ← execute opcode
  haltAtEnd
  return effect

theorem cycle_of_fetchOpcode_error {s t : State} {fault : Fault} (h : fetchOpcode s = .error fault t) :
    cycle s = .error fault t := by
  rw [cycle, bind_error h]

theorem cycle_of_execute_error {s t : State} {op : Opcode} {fault : Fault} (h : s.nextOpcode? = some op)
    (he : op.instruction.execute s.advance = .error fault t) : cycle s = .error fault t := by
  rw [cycle, bind_ok (fetchOpcode_some h), execute, bind_error he]

theorem cycle_of_execute_ok {s t : State} {op : Opcode} {effect : Effect} (h : s.nextOpcode? = some op)
    (he : op.instruction.execute s.advance = .ok effect t) : cycle s = .ok effect t.settle := by
  rw [cycle, bind_ok (fetchOpcode_some h), execute, bind_ok he]
  rfl

end Action

namespace Machine

section Step

variable {σ : Type} [Sink σ]

theorem step_eq_cycle {m : Machine σ} (hr : m.state.halted = false) :
    match Action.cycle m.state with
    | .ok effect s => ∃ journal, step m =
        .ok (!s.halted) ⟨s, Sink.accept m.output effect.values, journal, m.cycles + 1⟩
    | .error fault s => ∃ journal, step m = .error fault ⟨s, m.output, journal, m.cycles⟩ := by
  cases hop : m.state.nextOpcode? with
  | none =>
    obtain ⟨fault, s, hf⟩ := Action.exists_fetchOpcode_error hop
    rw [Action.cycle_of_fetchOpcode_error hf, step_of_cycle_error hr (cycle_of_fetch_error hf)]
    exact ⟨m.journal, rfl⟩
  | some op =>
    cases he : op.instruction.execute m.state.advance with
    | error fault s =>
      rw [Action.cycle_of_execute_error hop he, step_of_cycle_error hr (cycle_of_execute_error hop he)]
      exact ⟨_, rfl⟩
    | ok effect s =>
      rw [Action.cycle_of_execute_ok hop he, step_of_cycle_ok hr (cycle_of_execute_ok hop he)]
      refine ⟨(m.completed op effect s).journal, ?_⟩
      rw [← completed_output m op effect s]
      rfl

theorem exists_step_of_cycle_ok {m : Machine σ} {effect : Effect} {s : State} (hr : m.state.halted = false)
    (h : Action.cycle m.state = .ok effect s) : ∃ journal, step m =
      .ok (!s.halted) ⟨s, Sink.accept m.output effect.values, journal, m.cycles + 1⟩ := by
  have hs := step_eq_cycle hr
  rwa [h] at hs

theorem exists_step_of_cycle_error {m : Machine σ} {fault : Fault} {s : State} (hr : m.state.halted = false)
    (h : Action.cycle m.state = .error fault s) :
    ∃ journal, step m = .error fault ⟨s, m.output, journal, m.cycles⟩ := by
  have hs := step_eq_cycle hr
  rwa [h] at hs

end Step

end Machine

theorem Sink.accept_append {σ : Type} [Sink σ] (output : σ) (first second : List Number) :
    accept output (first ++ second) = accept (accept output first) second := List.foldl_append

theorem Collector.values_accept (collector : Collector) (values : List Number) :
    (Sink.accept collector values).values = collector.values ++ values := by
  induction values generalizing collector with
  | nil => exact (List.append_nil _).symm
  | cons x values ih =>
    change (Sink.accept (⟨x :: collector.latest⟩ : Collector) values).values = _
    rw [ih]
    simp [Collector.values]

def Conclusion.into {σ : Type} [Sink σ] (c : Conclusion Collector) (output : σ) : Conclusion σ :=
  ⟨c.fault?, c.state, Sink.accept output c.output.values, c.cycles⟩

namespace Machine

variable {σ : Type} [Sink σ]

/-- The machines differ only in their sinks, and what the one has collected has gone into the sink of the other. -/
structure Beside (output : σ) (k : Machine Collector) (m : Machine σ) : Prop where
  state : m.state = k.state
  output : m.output = Sink.accept output k.output.values
  cycles : m.cycles = k.cycles

inductive Observed (output : σ) :
    EStateM.Result Fault (Machine Collector) Bool → EStateM.Result Fault (Machine σ) Bool → Prop
  | ok {running : Bool} {k : Machine Collector} {m : Machine σ} (h : Beside output k m) :
      Observed output (.ok running k) (.ok running m)
  | error {fault : Fault} {k : Machine Collector} {m : Machine σ} (h : Beside output k m) :
      Observed output (.error fault k) (.error fault m)

theorem Beside.conclude {output : σ} {k : Machine Collector} {m : Machine σ} (h : Beside output k m)
    (fault? : Option Fault) : m.conclude fault? = (k.conclude fault?).into output := by
  rw [Machine.conclude, h.state, h.output, h.cycles]
  rfl

theorem Beside.step {output : σ} {k : Machine Collector} {m : Machine σ} (h : Beside output k m) :
    Observed output (step k) (step m) := by
  cases hr : k.state.halted with
  | true =>
    rw [step_of_halted hr, step_of_halted (h.state ▸ hr)]
    exact .ok h
  | false =>
    have hrm : m.state.halted = false := h.state ▸ hr
    cases hc : Action.cycle k.state with
    | error fault s =>
      obtain ⟨journal, hk⟩ := exists_step_of_cycle_error hr hc
      obtain ⟨journal', hm⟩ := exists_step_of_cycle_error hrm (h.state ▸ hc)
      rw [hk, hm]
      exact .error ⟨rfl, h.output, h.cycles⟩
    | ok effect s =>
      obtain ⟨journal, hk⟩ := exists_step_of_cycle_ok hr hc
      obtain ⟨journal', hm⟩ := exists_step_of_cycle_ok hrm (h.state ▸ hc)
      rw [hk, hm]
      refine .ok ⟨rfl, ?_, congrArg (· + 1) h.cycles⟩
      rw [Collector.values_accept, Sink.accept_append, ← h.output]

theorem Beside.run {output : σ} {k : Machine Collector} {m : Machine σ} (h : Beside output k m) (fuel : Nat) :
    (m.run fuel).map conclusion = ((k.run fuel).map conclusion).map (·.into output) := by
  induction fuel generalizing k m with
  | zero => rfl
  | succ fuel ih =>
    have hs := h.step
    generalize hk : Machine.step k = r at hs
    generalize hm : Machine.step m = r' at hs
    cases hs with
    | error hn =>
      rw [run_of_fault hk, run_of_fault hm]
      exact congrArg some (hn.conclude _)
    | @ok running _ _ hn =>
      cases running with
      | true => rw [run_of_running hk, run_of_running hm, ih hn]
      | false =>
        rw [run_of_stopped hk, run_of_stopped hm]
        exact congrArg some (hn.conclude none)

theorem computes_iff_conclusion (m : Machine σ) (c : Conclusion σ) :
    m.Computes c ↔ ∃ fuel, (m.run fuel).map conclusion = some c := by
  simp only [Computes, Returns, Option.map_eq_some_iff]

theorem Beside.computes_iff {output : σ} {k : Machine Collector} {m : Machine σ} (h : Beside output k m)
    (c' : Conclusion σ) : m.Computes c' ↔ ∃ c, k.Computes c ∧ c' = c.into output := by
  simp only [computes_iff_conclusion, h.run, Option.map_eq_some_iff]
  constructor
  · rintro ⟨fuel, c, ⟨ending, hr, hc⟩, rfl⟩
    exact ⟨c, ⟨fuel, ending, hr, hc⟩, rfl⟩
  · rintro ⟨c, ⟨fuel, ending, hr, hc⟩, rfl⟩
    exact ⟨fuel, c, ⟨ending, hr, hc⟩, rfl⟩

theorem start_beside (program : Program) (output : σ) (journal journal' : Journal) :
    Beside output (start program ({} : Collector) journal) (start program output journal') :=
  ⟨rfl, rfl, rfl⟩

theorem sinks_only_observe (program : Program) (journal journal' : Journal) :
    (∀ (σ : Type) [Sink σ] (output : σ) (c' : Conclusion σ), (start program output journal').Computes c' ↔
        ∃ c, (start program ({} : Collector) journal).Computes c ∧ c' = c.into output) ∧
      ∀ (c : Conclusion Collector) (w : Writer) (room : Nat), (start program ({} : Collector) journal).Computes c →
        w.room = some room → ∃ c', (start program ({ writer := w } : LineSink) journal').Computes c' ∧
          c'.fault? = c.fault? ∧ c'.state = c.state ∧
          c'.output.writer.accepted = w.accepted ++ (Number.lines c.output.values).toUTF8.extract 0
            (min room (Number.lines c.output.values).utf8ByteSize) ∧
          c'.output.emitted = (List.range c.output.values.length).countP fun i =>
            (Number.lines (c.output.values.take (i + 1))).utf8ByteSize ≤ room := by
  constructor
  · intro σ _ output c'
    exact (start_beside program output journal journal').computes_iff c'
  · intro c w room hc hroom
    refine ⟨c.into { writer := w }, ?_, rfl, rfl, ?_⟩
    · exact ((start_beside program _ journal journal').computes_iff _).mpr ⟨c, hc, rfl⟩
    · rw [Conclusion.into, LineSink.accept_eq]
      constructor
      · rw [Writer.taking, Writer.kept_of_room hroom]
      · simp only [LineSink.wholeLines, Writer.fits_iff hroom, Nat.zero_add]

def showTwice : Program := (((Program.empty.emitPush Number.nan).emit .dup).emit .out).emit .out

theorem sinks_only_observe_showTwice : ∃ c',
    (start showTwice ({ writer := { room := some 5 } } : LineSink) .silent).Computes c' ∧ c'.fault? = none ∧
      c'.output.writer.accepted = "NaN\nN".toUTF8 ∧ c'.output.emitted = 1 := by
  have hrun : ((start showTwice ({} : Collector) .silent).run 5).map (fun ending =>
      ((conclusion ending).fault?, (conclusion ending).output.values)) = some (none, [Number.nan, Number.nan]) := by
    decide +kernel
  obtain ⟨ending, hending, hshown⟩ := Option.map_eq_some_iff.mp hrun
  obtain ⟨hfault, hvalues⟩ := Prod.mk.inj hshown
  obtain ⟨c', hc', hf, _, haccepted, hemitted⟩ := (sinks_only_observe showTwice .silent .silent).2 (conclusion ending)
    { room := some 5 } 5 ⟨5, ending, hending, rfl⟩ rfl
  rw [hvalues] at haccepted hemitted
  exact ⟨c', hc', hf.trans hfault, haccepted.trans (by decide +kernel), hemitted.trans (by decide +kernel)⟩

end Machine

end StackMachine
