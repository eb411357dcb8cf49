import StackMachine.Proofs.Agreement

/-!
What a traced run reports. Its events fall into laps, one for each completed cycle: the machine says what it has
decoded, then whether it has jumped, and at last the tracer reports the step. Each lap begins where the one before it
has left the machine, and only a fault after the decoding can add an event to the laps.
-/

namespace StackMachine

def Event.isReport : Event → Bool
  | writeFailed _ _ => true
  | valueEmitted _ => true
  | _ => false

class Sink.Discreet (σ : Type) [Sink σ] : Prop where
  isReport_of_mem (output : σ) (value : Number) {e : Event} (h : e ∈ (emit output value).2) : e.isReport = true

instance : Sink.Discreet Collector where
  isReport_of_mem _ _ _ h := by cases h

instance : Sink.Discreet LogSink where
  isReport_of_mem _ _ _ h := by
    cases List.mem_singleton.mp h
    rfl

instance : Sink.Discreet LineSink where
  isReport_of_mem sink value e h := by
    simp only [Sink.emit] at h
    split at h
    · cases h
    · cases List.mem_singleton.mp h
      rfl

namespace Journal

def complete : Journal where
  filter := { threshold := some .trace }

theorem events_record_of_complete {journal : Journal} (h : journal.filter = complete.filter) (e : Event) :
    (journal.record e).events = journal.events ++ [e] := by
  have ha : journal.filter.admits e = true := by
    rw [h]
    simp [Filter.admits, complete, Level.severity]
  rw [events_record, if_pos ha]

theorem filter_record (journal : Journal) (e : Event) : (journal.record e).filter = journal.filter := by
  rw [record]
  split <;> rfl

theorem events_recordAll_of_complete {journal : Journal} (h : journal.filter = complete.filter)
    (events : List Event) : (journal.recordAll events).events = journal.events ++ events := by
  induction events generalizing journal with
  | nil => exact (List.append_nil _).symm
  | cons e events ih =>
    have hnext := ih ((filter_record journal e).trans h)
    rw [events_record_of_complete h, List.append_assoc] at hnext
    exact hnext

end Journal

structure Decoded where
  pc : Nat
  opcode : Opcode
  stack : Stack
deriving DecidableEq

def Decoded.event (d : Decoded) : Event := .cycle d.pc d.opcode d.stack

def State.decoded? (s : State) : Option Decoded := s.nextOpcode?.map fun op => ⟨s.pc, op, s.stack⟩

structure Lap extends Decoded where
  jump : Option (Nat × Nat)
  reports : List Event
  after : Stack

namespace Lap

def events (lap : Lap) : List Event :=
  lap.toDecoded.event :: (lap.jump.map fun j => .branchTaken j.1 j.2).toList ++ lap.reports ++
    [.stepped lap.pc (some lap.opcode) lap.after]

def next (lap : Lap) : Nat :=
  match lap.jump with
  | some (_, target) => target
  | none => lap.pc + 1 + lap.opcode.literalCount

structure Sound (lap : Lap) : Prop where
  source : ∀ j, lap.jump = some j → j.1 = lap.pc + 1
  reports : ∀ e ∈ lap.reports, e.isReport = true

theorem filterMap_events {α : Type} {g : Event → Option α} (hg : ∀ e, e.isReport = true → g e = none)
    (hb : ∀ source target, g (.branchTaken source target) = none) {lap : Lap} (h : lap.Sound) :
    lap.events.filterMap g =
      (g lap.toDecoded.event).toList ++ (g (.stepped lap.pc (some lap.opcode) lap.after)).toList := by
  have hreports : lap.reports.filterMap g = [] := by
    rw [List.filterMap_eq_nil_iff]
    exact fun e he => hg e (h.reports e he)
  have hjump : (lap.jump.map fun j => Event.branchTaken j.1 j.2).toList.filterMap g = [] := by
    cases lap.jump with
    | none => rfl
    | some j => simp [hb]
  have hsingle : ∀ e, [e].filterMap g = (g e).toList := by
    intro e
    cases hge : g e <;> simp [hge]
  rw [events, List.filterMap_append, List.filterMap_append, hreports, hsingle, List.append_nil,
    ← List.singleton_append, List.filterMap_append, hsingle, hjump, List.append_nil]

end Lap

/-- The laps, and what is decoded after them, begin each where the one before has ended, and the first at `pc`. -/
def LinkedFrom (extra : Option Decoded) : Nat → Stack → List Lap → Prop
  | pc, stack, [] => ∀ d, extra = some d → d.pc = pc ∧ d.stack = stack
  | pc, stack, lap :: laps =>
    lap.pc = pc ∧ lap.stack = stack ∧ lap.Sound ∧ LinkedFrom extra lap.next lap.after laps

theorem LinkedFrom.sound {extra : Option Decoded} {pc : Nat} {stack : Stack} {laps : List Lap}
    (h : LinkedFrom extra pc stack laps) : ∀ lap ∈ laps, lap.Sound := by
  induction laps generalizing pc stack with
  | nil => nofun
  | cons lap laps ih =>
    obtain ⟨_, _, hlap, hrest⟩ := h
    exact List.forall_mem_cons.mpr ⟨hlap, ih hrest⟩

def Event.decoded? : Event → Option Decoded
  | cycle pc opcode stack => some ⟨pc, opcode, stack⟩
  | _ => none

def Event.stepped? : Event → Option (Nat × Option Opcode × Stack)
  | stepped pc opcode stack => some (pc, opcode, stack)
  | _ => none

theorem filterMap_trace {α : Type} {g : Event → Option α} (hg : ∀ e, e.isReport = true → g e = none)
    (hb : ∀ source target, g (.branchTaken source target) = none) {laps : List Lap}
    (h : ∀ lap ∈ laps, lap.Sound) (extra : Option Decoded) :
    (laps.flatMap Lap.events ++ (extra.map Decoded.event).toList).filterMap g =
      (laps.flatMap fun lap =>
        (g lap.toDecoded.event).toList ++ (g (.stepped lap.pc (some lap.opcode) lap.after)).toList) ++
        (extra.bind fun d => g d.event).toList := by
  rw [List.filterMap_append, List.filterMap_flatMap,
    List.flatMap_congr fun lap hlap => Lap.filterMap_events hg hb (h lap hlap)]
  cases extra with
  | none => rfl
  | some d => cases hd : g d.event <;> simp [hd]

theorem filterMap_decoded? {laps : List Lap} (h : ∀ lap ∈ laps, lap.Sound) (extra : Option Decoded) :
    (laps.flatMap Lap.events ++ (extra.map Decoded.event).toList).filterMap Event.decoded? =
      laps.map Lap.toDecoded ++ extra.toList := by
  rw [filterMap_trace _ (fun _ _ => rfl) h, List.map_eq_flatMap]
  · cases extra <;> rfl
  · intro e he
    cases e <;> first | rfl | cases he

theorem filterMap_stepped? {laps : List Lap} (h : ∀ lap ∈ laps, lap.Sound) (extra : Option Decoded) :
    (laps.flatMap Lap.events ++ (extra.map Decoded.event).toList).filterMap Event.stepped? =
      laps.map fun lap => (lap.pc, some lap.opcode, lap.after) := by
  rw [filterMap_trace _ (fun _ _ => rfl) h, List.map_eq_flatMap]
  · cases extra <;> exact List.append_nil _
  · intro e he
    cases e <;> first | rfl | cases he

def Effect.jump? : Effect → Option (Nat × Nat)
  | jumped source target => some (source, target)
  | _ => none

theorem Instruction.Ends.pc_of_ok {op : Opcode} {s t : State} {effect : Effect}
    (h : op.instruction.Ends s (.ok effect t)) :
    effect.jump? = some (s.pc, t.pc) ∨ effect.jump? = none ∧ t.pc = s.pc + op.literalCount := by
  generalize hi : op.instruction = i at h
  cases h with
  | branchTaken _ _ _ _ => exact .inl rfl
  | _ =>
    refine .inr ⟨rfl, ?_⟩
    cases op <;> cases hi <;> rfl

namespace Machine

variable {σ : Type} [Sink σ]

def reports (m : Machine σ) : Effect → List Event
  | .emitted value => (Sink.emit m.output value).2
  | _ => []

def lap (m : Machine σ) (op : Opcode) (effect : Effect) (s : State) : Lap where
  pc := m.state.pc
  opcode := op
  stack := m.state.stack
  jump := effect.jump?
  reports := m.reports effect
  after := s.stack

theorem lap_sound [Sink.Discreet σ] {m : Machine σ} {op : Opcode} {effect : Effect} {s : State}
    (h : op.instruction.Ends m.state.advance (.ok effect s)) : (m.lap op effect s).Sound where
  source j hj := by
    rcases h.pc_of_ok with hjump | ⟨hnone, _⟩
    · cases hjump.symm.trans hj
      rfl
    · cases hnone.symm.trans hj
  reports e he := by
    cases effect with
    | emitted value => exact Sink.Discreet.isReport_of_mem m.output value he
    | quiet => cases he
    | jumped source target => cases he

theorem lap_next {m : Machine σ} {op : Opcode} {effect : Effect} {s : State}
    (h : op.instruction.Ends m.state.advance (.ok effect s)) : (m.lap op effect s).next = s.pc := by
  rcases h.pc_of_ok with hjump | ⟨hnone, hpc⟩
  · simp only [Lap.next, lap, hjump]
  · simp only [Lap.next, lap, hnone, hpc]
    rfl

theorem journal_completed (m : Machine σ) (op : Opcode) (effect : Effect) (s : State) :
    ((m.completed op effect s).record (.stepped m.state.pc (some op) s.stack)).journal =
      m.journal.recordAll (m.lap op effect s).events := by
  cases effect with
  | quiet => rfl
  | jumped source target => rfl
  | emitted value =>
    simp only [Journal.recordAll, Lap.events, List.foldl_append]
    rfl

structure Adds (m : Machine σ) (lap : Lap) (reported : Machine σ) : Prop where
  pc : lap.pc = m.state.pc
  stack : lap.stack = m.state.stack
  sound : lap.Sound
  next : lap.next = reported.state.pc
  after : lap.after = reported.state.stack
  cycles : reported.cycles = m.cycles + 1
  journal : reported.journal = m.journal.recordAll lap.events

theorem exists_adds [Sink.Discreet σ] {m next : Machine σ} {running : Bool} (hr : m.state.halted = false)
    (h : step m = .ok running next) :
    ∃ lap, m.Adds lap (next.record (.stepped m.state.pc m.state.nextOpcode? next.state.stack)) := by
  have hc := step_cycle hr
  rw [h] at hc
  cases hc with
  | @complete op effect s hop he =>
    refine ⟨m.lap op effect s, rfl, rfl, lap_sound he, lap_next he, rfl, rfl, ?_⟩
    rw [hop]
    exact journal_completed m op effect s

theorem journal_of_fault {m next : Machine σ} {fault : Fault} (h : step m = .error fault next) :
    next.journal = m.journal.recordAll (m.state.decoded?.map Decoded.event).toList ∧ next.cycles = m.cycles := by
  have hr := not_halted_of_step_error h
  cases hop : m.state.nextOpcode? with
  | none =>
    obtain ⟨fault', s, hf⟩ := Action.exists_fetchOpcode_error hop
    cases (step_of_cycle_error hr (cycle_of_fetch_error hf)).symm.trans h
    rw [State.decoded?, hop]
    exact ⟨rfl, rfl⟩
  | some op =>
    rcases step_of_nextOpcode hr hop with ⟨effect, s, _, hs⟩ | ⟨fault', s, _, hs⟩
    · cases hs.symm.trans h
    · cases hs.symm.trans h
      rw [State.decoded?, hop]
      exact ⟨rfl, rfl⟩

/-- A run that faults does so in the step after `count` others, and `extra` is what that step has decoded before. -/
def Leaves (m : Machine σ) (count : Nat) (extra : Option Decoded) : Ending σ → Prop
  | .ok _ _ => extra = none
  | .error fault _ => ∃ last next, Steps count m last ∧ step last = .error fault next ∧ extra = last.state.decoded?

theorem Leaves.succ {m next : Machine σ} {count : Nat} {extra : Option Decoded} {ending : Ending σ}
    (hm : step m = .ok true next) (h : next.Leaves count extra ending) : m.Leaves (count + 1) extra ending := by
  cases ending with
  | ok _ _ => exact h
  | error fault _ =>
    obtain ⟨last, left, hsteps, hlast, hextra⟩ := h
    exact ⟨last, left, .succ hm hsteps, hlast, hextra⟩

theorem runTraced_of_fault {m next : Machine σ} {fault : Fault} (h : step m = .error fault next) (fuel : Nat) :
    m.runTraced (fuel + 1) = some (.error fault next) := by
  rw [runTraced, h]

theorem runTraced_of_running {m next : Machine σ} (h : step m = .ok true next) (fuel : Nat) :
    m.runTraced (fuel + 1) =
      (next.record (.stepped m.state.pc m.state.nextOpcode? next.state.stack)).runTraced fuel := by
  rw [runTraced, h]

theorem runTraced_of_stopped {m next : Machine σ} (h : step m = .ok false next) (fuel : Nat) :
    m.runTraced (fuel + 1) =
      some (.ok () (next.record (.stepped m.state.pc m.state.nextOpcode? next.state.stack))) := by
  rw [runTraced, h]

theorem exists_laps [Sink.Discreet σ] {fuel : Nat} {m : Machine σ} {ending : Ending σ}
    (hr : m.state.halted = false) (h : m.runTraced fuel = some ending) :
    ∃ laps extra, LinkedFrom extra m.state.pc m.state.stack laps ∧ m.quiet.Leaves laps.length extra ending ∧
      ending.machine.cycles = m.cycles + laps.length ∧ ending.machine.journal =
        m.journal.recordAll (laps.flatMap Lap.events ++ (extra.map Decoded.event).toList) := by
  -- The first step gives the first lap, and the silent machine beside it shows from where a fault arises.
  induction fuel generalizing m with
  | zero => cases h
  | succ fuel ih =>
    have hq := step_quiet m
    cases hs : step m with
    | error fault next =>
      rw [runTraced_of_fault hs] at h
      cases h
      rw [hs] at hq
      obtain ⟨hjournal, hcycles⟩ := journal_of_fault hs
      refine ⟨[], m.state.decoded?, ?_, ⟨m.quiet, next.quiet, .zero _, hq, rfl⟩, hcycles, hjournal⟩
      intro d hd
      obtain ⟨op, _, rfl⟩ := Option.map_eq_some_iff.mp hd
      exact ⟨rfl, rfl⟩
    | ok running next =>
      obtain ⟨lap, hlap⟩ := exists_adds hr hs
      cases running with
      | false =>
        rw [runTraced_of_stopped hs] at h
        cases h
        refine ⟨[lap], none, ⟨hlap.pc, hlap.stack, hlap.sound, nofun⟩, rfl, hlap.cycles, hlap.journal.trans ?_⟩
        simp
      | true =>
        rw [runTraced_of_running hs] at h
        rw [hs] at hq
        have hnext : next.state.halted = false := step_ok_halted hs
        obtain ⟨laps, extra, hlinked, hleaves, hcycles, hjournal⟩ := ih (m := next.record _) hnext h
        refine ⟨lap :: laps, extra, ⟨hlap.pc, hlap.stack, hlap.sound, ?_⟩, ?_, ?_, ?_⟩
        · rw [hlap.next, hlap.after]
          exact hlinked
        · exact hleaves.succ hq
        · rw [hcycles, hlap.cycles, List.length_cons]
          omega
        · rw [hjournal, hlap.journal]
          simp [Journal.recordAll, List.foldl_append]

theorem runTraced_empty {program : Program} (h : program.isEmpty = true) (output : σ) (fuel : Nat) :
    ∃ final, (start program output .complete).runTraced (fuel + 1) = some (.ok () final) ∧
      final.journal.events = [.stepped 0 none []] := by
  have hop : (start program output .complete).state.nextOpcode? = none := by
    have hcell : program.cell? 0 = none :=
      (program.cell?_eq_none_iff 0).mpr (Nat.le_of_eq (program.isEmpty_iff_size.mp h))
    simp [start, State.initial, State.nextOpcode?, hcell]
  refine ⟨_, runTraced_of_stopped (step_of_halted h) fuel, ?_⟩
  rw [hop]
  exact Journal.events_record_of_complete rfl _

theorem traces_are_faithful [Sink.Discreet σ] (program : Program) (output : σ) :
    (program.isEmpty = false → ∀ fuel ending, (start program output .complete).runTraced fuel = some ending →
      ∃ laps extra,
        ending.machine.journal.events = laps.flatMap Lap.events ++ (extra.map Decoded.event).toList ∧
        ending.machine.journal.events.filterMap Event.stepped? =
          laps.map (fun lap => (lap.pc, some lap.opcode, lap.after)) ∧
        ending.machine.journal.events.filterMap Event.decoded? = laps.map Lap.toDecoded ++ extra.toList ∧
        laps.length = ending.machine.cycles ∧ LinkedFrom extra 0 [] laps ∧
        (start program output .silent).Leaves laps.length extra ending) ∧
      (program.isEmpty = true → ∀ fuel, ∃ final,
        (start program output .complete).runTraced (fuel + 1) = some (.ok () final) ∧
          final.journal.events = [.stepped 0 none []]) := by
  constructor
  · intro hne fuel ending hrun
    obtain ⟨laps, extra, hlinked, hleaves, hcycles, hjournal⟩ := exists_laps hne hrun
    have hcomplete : (start program output .complete).journal.filter = Journal.complete.filter := rfl
    have hevents : ending.machine.journal.events = laps.flatMap Lap.events ++ (extra.map Decoded.event).toList := by
      rw [hjournal, Journal.events_recordAll_of_complete hcomplete]
      rfl
    have hsound := hlinked.sound
    refine ⟨laps, extra, hevents, ?_, ?_, (hcycles.trans (Nat.zero_add _)).symm, hlinked, hleaves⟩
    · rw [hevents, filterMap_stepped? hsound]
    · rw [hevents, filterMap_decoded? hsound]
  · intro h fuel
    exact runTraced_empty h output fuel

def jumpThenUnderflow : Program := (((Program.empty.emitPush (Number.ofNat 1)).emit .jmp).emit .nop).emit .out

theorem traces_are_faithful_jumpThenUnderflow : ∃ ending laps,
    (start jumpThenUnderflow ({ writer := {} } : LineSink) .complete).runTraced 3 = some ending ∧
      ending.machine.journal.events = laps.flatMap Lap.events ++ [.cycle 4 .out []] ∧
      laps.map Lap.next = [2, 4] ∧ LinkedFrom (some ⟨4, .out, []⟩) 0 [] laps := by
  have hrun : ((start jumpThenUnderflow ({ writer := {} } : LineSink) .complete).runTraced 3).map (fun ending =>
      (ending.machine.cycles, ending.machine.journal.events.filterMap Event.decoded?)) =
        some (2, [⟨0, .push, []⟩, ⟨2, .jmp, [Number.ofNat 1]⟩, ⟨4, .out, []⟩]) := by
    decide +kernel
  obtain ⟨ending, hending, hshown⟩ := Option.map_eq_some_iff.mp hrun
  obtain ⟨hcycles, hdecoded⟩ := Prod.mk.inj hshown
  obtain ⟨laps, extra, hevents, _, hlaps, hlength, hlinked, _⟩ :=
    (traces_are_faithful jumpThenUnderflow ({ writer := {} } : LineSink)).1 rfl 3 ending hending
  obtain ⟨first, second, rfl⟩ := List.length_eq_two.mp (hlength.trans hcycles)
  have hparts := hdecoded.symm.trans hlaps
  cases extra with
  | none => simp at hparts
  | some d =>
    obtain ⟨_, hsecond, hd⟩ : _ ∧ _ ∧ _ := by simpa using hparts
    subst hd
    have hpc : second.pc = first.next := hlinked.2.2.2.1
    have hfirst : first.next = 2 := hpc.symm.trans (congrArg Decoded.pc hsecond.symm)
    have hlast : 4 = second.next := (hlinked.2.2.2.2.2.2 _ rfl).1
    refine ⟨ending, [first, second], hending, hevents, ?_, hlinked⟩
    rw [List.map_cons, List.map_singleton, hfirst, ← hlast]

end Machine

end StackMachine
