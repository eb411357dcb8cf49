import StackMachine.Proofs.Observation
import StackMachine.Session

/-!
What a session writes and what it comes to. The listing, the values and the dump go to one writer, which accepts the
first bytes of all of them together. A listing or a dump that does not fit ends the session, values that do not fit
are lost without an error, and a fault of the machine comes before everything that the dump or the flush would report.
-/

namespace StackMachine

namespace Options

def listing (options : Options) (program : Program) : String :=
  if options.disassemble then program.disassemble ++ "\n" else ""

def dump (options : Options) (state : State) : String :=
  if options.dumpState then state.json ++ "\n" else ""

end Options

namespace Session

section Parts

variable {α β : Type} {x : SessionM α} {k : α → SessionM β} {s t : Session}

theorem bind_returns {a : α} (h : x.run.run s = some (.ok a, t)) : (x >>= k).run.run s = (k a).run.run t := by
  rw [ExceptT.run_bind, StateT.run_bind, h]
  rfl

theorem bind_fails {failure : Failure} (h : x.run.run s = some (.error failure, t)) :
    (x >>= k).run.run s = some (.error failure, t) := by
  rw [ExceptT.run_bind, StateT.run_bind, h]
  rfl

theorem bind_get {k : Session → SessionM β} : (get >>= k).run.run s = (k s).run.run s := rfl

theorem run_record (e : Event) (s : Session) :
    (record e).run.run s = some (.ok (), ⟨s.writer, s.journal.record e⟩) := rfl

end Parts

section Output

variable {action : EStateM WriteError Writer Unit} {w w' : Writer} {text : String}

theorem output_returns (h : action w = .ok () w') (journal : Journal) :
    (output action).run.run ⟨w, journal⟩ = some (.ok (), ⟨w', journal⟩) := by
  rw [output, bind_get, h]
  rfl

theorem output_fails {e : WriteError} (h : action w = .error e w') (journal : Journal) :
    (output action).run.run ⟨w, journal⟩ = some (.error (.output e), ⟨w', journal⟩) := by
  rw [output, bind_get, h]
  rfl

theorem output_bind (first second : EStateM WriteError Writer Unit) :
    output (do first; second) = (do output first; output second) := by
  apply ExceptT.ext
  apply StateT.ext
  rintro ⟨w, journal⟩
  cases hf : first w with
  | error e w' =>
    have hboth : (do first; second : EStateM WriteError Writer Unit) w = .error e w' := StackMachine.bind_error hf
    rw [output_fails hboth, bind_fails (output_fails hf journal)]
  | ok _ w' =>
    have hboth : (do first; second : EStateM WriteError Writer Unit) w = second w' := StackMachine.bind_ok hf
    rw [bind_returns (output_returns hf journal)]
    cases hs : second w' with
    | error e _ => rw [output_fails (hboth.trans hs), output_fails hs]
    | ok _ _ => rw [output_returns (hboth.trans hs), output_returns hs]

theorem write_append (a b : String) : write (a ++ b) = (do write a; write b) := by
  rw [write, Writer.write_append, output_bind]
  rfl

theorem write_empty : write "" = pure () := by
  apply ExceptT.ext
  apply StateT.ext
  rintro ⟨w, journal⟩
  have hw : Writer.write "" w = .ok () w := by
    rw [Writer.write_of_fits (fun _ _ => Nat.zero_le _), Writer.taking_empty]
  exact output_returns hw journal

theorem write_returns (h : w.Fits text) (journal : Journal) :
    (write text).run.run ⟨w, journal⟩ = some (.ok (), ⟨w.taking text, journal⟩) :=
  output_returns (Writer.write_of_fits h) journal

theorem write_fails (h : ¬ w.Fits text) (journal : Journal) :
    (write text).run.run ⟨w, journal⟩ = some (.error (.output .closed), ⟨w.taking text, journal⟩) :=
  output_fails (Writer.write_of_not_fits h) journal

theorem flush_returns (h : w.flushable = true) (journal : Journal) :
    flush.run.run ⟨w, journal⟩ = some (.ok (), ⟨w, journal⟩) := by
  apply output_returns
  rw [Writer.flush, if_pos h]

theorem flush_fails (h : ¬ w.flushable = true) (journal : Journal) :
    flush.run.run ⟨w, journal⟩ = some (.error (.output .flushFailed), ⟨w, journal⟩) := by
  apply output_fails
  rw [Writer.flush, if_neg h]

end Output

theorem execute_eq (options : Options) (fuel : Nat) (program : Program) : execute options fuel program = (do
    record (.programStarted program.size)
    write (options.listing program)
    let state ← run options fuel program
    write (options.dump state)
    flush
    return state) := by
  -- What is not asked for is an empty text, and to write that does nothing.
  unfold execute Options.listing Options.dump
  cases options.disassemble <;> cases options.dumpState <;> simp [write_append, write_empty]

end Session

namespace Machine

variable {σ : Type} [Sink σ]

theorem exists_runTraced {fuel : Nat} {m : Machine σ} {ending : Ending σ} (h : m.run fuel = some ending) :
    ∃ traced, m.runTraced fuel = some traced ∧ conclusion traced = conclusion ending := by
  have hq := (run_quiet fuel m).symm.trans (runTraced_quiet fuel m)
  rw [h] at hq
  obtain ⟨traced, ht, he⟩ := Option.map_eq_some_iff.mp hq.symm
  exact ⟨traced, ht, by rw [← conclusion_quietly traced, he, conclusion_quietly]⟩

theorem Computes.exists_fuel {m : Machine σ} {c : Conclusion σ} (h : m.Computes c) (trace : Bool) :
    ∃ enough, ∀ fuel ≥ enough, ∃ ending,
      (if trace then m.runTraced fuel else m.run fuel) = some ending ∧ conclusion ending = c := by
  obtain ⟨enough, ending, hrun, hc⟩ := h
  refine ⟨enough, ?_⟩
  intro fuel hfuel
  obtain ⟨more, rfl⟩ := Nat.exists_eq_add_of_le hfuel
  have hmore := run_add hrun more
  cases trace with
  | false => exact ⟨ending, hmore, hc⟩
  | true =>
    obtain ⟨traced, ht, he⟩ := exists_runTraced hmore
    exact ⟨traced, ht, he.trans hc⟩

end Machine

open Machine (start conclusion)

namespace Session

def result {σ : Type} (c : Conclusion σ) : Except Failure State :=
  match c.fault? with
  | none => .ok c.state
  | some fault => .error (.machine fault c.state)

theorem run_returns {options : Options} {fuel : Nat} {program : Program} {s : Session} {ending : Ending LineSink}
    (h : (if options.trace then (start program ({ writer := s.writer } : LineSink) s.journal).runTraced fuel
      else (start program ({ writer := s.writer } : LineSink) s.journal).run fuel) = some ending) :
    ∃ journal, (run options fuel program).run.run s =
      some (result (conclusion ending), ⟨(conclusion ending).output.writer, journal⟩) := by
  refine ⟨ending.machine.journal.record (.programFinished ending.machine.output.emitted), ?_⟩
  rw [run, bind_get]
  dsimp only
  rw [h]
  cases ending <;> rfl

theorem run_computes {program : Program} {journal : Journal} {c : Conclusion Collector}
    (h : (start program ({} : Collector) journal).Computes c) (options : Options) (s : Session) :
    ∃ enough, ∀ fuel ≥ enough, ∃ journal', (run options fuel program).run.run s =
      some (result c, ⟨s.writer.taking (Number.lines c.output.values), journal'⟩) := by
  have hbeside := Machine.start_beside program ({ writer := s.writer } : LineSink) journal s.journal
  have hlines := (hbeside.computes_iff _).mpr ⟨c, h, rfl⟩
  obtain ⟨enough, hfuel⟩ := hlines.exists_fuel options.trace
  refine ⟨enough, ?_⟩
  intro fuel hle
  obtain ⟨ending, hrun, hc⟩ := hfuel fuel hle
  obtain ⟨journal', hs⟩ := run_returns hrun
  rw [hc, Conclusion.into, LineSink.accept_eq] at hs
  exact ⟨journal', hs⟩

/--
What a session comes to when its run concludes with `c`, and the text that it has offered to the writer by then. The
order of the cases is the order in which failures take precedence.
-/
def outcome (options : Options) (program : Program) (w : Writer) (c : Conclusion Collector) :
    Except Failure State × String :=
  let listing := options.listing program
  let shown := listing ++ Number.lines c.output.values
  let whole := shown ++ options.dump c.state
  if ¬ w.Fits listing then (.error (.output .closed), listing)
  else match c.fault? with
    | some fault => (.error (.machine fault c.state), shown)
    | none =>
      if options.dumpState ∧ ¬ w.Fits whole then (.error (.output .closed), whole)
      else if ¬ w.flushable then (.error (.output .flushFailed), whole)
      else (.ok c.state, whole)

theorem dump_fits_iff (options : Options) (state : State) (w : Writer) (text : String) :
    (w.taking text).Fits (options.dump state) ↔ ¬ (options.dumpState ∧ ¬ w.Fits (text ++ options.dump state)) := by
  cases hd : options.dumpState with
  | false =>
    have hempty : options.dump state = "" := by simp [Options.dump, hd]
    simp [hempty, Writer.Fits]
  | true =>
    have hne : options.dump state ≠ "" := by simp [Options.dump, hd]
    simp [Writer.taking_fits_iff hne]

theorem execute_of_listing_cut {options : Options} {program : Program} {s : Session}
    (h : ¬ s.writer.Fits (options.listing program)) (fuel : Nat) :
    (execute options fuel program).run.run s = some (.error (.output .closed),
      ⟨s.writer.taking (options.listing program), s.journal.record (.programStarted program.size)⟩) := by
  rw [execute_eq, bind_returns (run_record _ s)]
  exact bind_fails (write_fails h _)

theorem close_run (options : Options) (state : State) (w : Writer) (shown : String) (journal : Journal) :
    (do write (options.dump state); flush; return state : SessionM State).run.run ⟨w.taking shown, journal⟩ = some (
      if options.dumpState ∧ ¬ w.Fits (shown ++ options.dump state) then .error (.output .closed)
      else if ¬ w.flushable then .error (.output .flushFailed)
      else .ok state,
      ⟨w.taking (shown ++ options.dump state), journal⟩) := by
  have hdump := dump_fits_iff options state w shown
  by_cases hfits : (w.taking shown).Fits (options.dump state)
  · rw [bind_returns (write_returns hfits journal), Writer.taking_taking, if_neg (hdump.mp hfits)]
    by_cases hflush : w.flushable = true
    · rw [bind_returns (flush_returns (w := w.taking _) hflush journal), if_neg (not_not.mpr hflush)]
      rfl
    · rw [bind_fails (flush_fails (w := w.taking _) hflush journal), if_pos hflush]
  · rw [bind_fails (write_fails hfits journal), Writer.taking_taking, if_pos (not_not.mp (mt hdump.mpr hfits))]

theorem execute_of_run {options : Options} {fuel : Nat} {program : Program} {s : Session} {journal : Journal}
    {c : Conclusion Collector} (hfits : s.writer.Fits (options.listing program))
    (hrun : (run options fuel program).run.run
        ⟨s.writer.taking (options.listing program), s.journal.record (.programStarted program.size)⟩ =
      some (result c, ⟨s.writer.taking (options.listing program ++ Number.lines c.output.values), journal⟩)) :
    (execute options fuel program).run.run s = some ((outcome options program s.writer c).1,
      ⟨s.writer.taking (outcome options program s.writer c).2, journal⟩) := by
  rw [execute_eq, bind_returns (run_record _ s), bind_returns (write_returns hfits _)]
  simp only [outcome, not_not.mpr hfits, ↓reduceIte]
  cases hfault : c.fault? with
  | some fault =>
    rw [result, hfault] at hrun
    exact bind_fails hrun
  | none =>
    rw [result, hfault] at hrun
    rw [bind_returns hrun, close_run]
    split_ifs <;> rfl

theorem execute_precedence (options : Options) (program : Program) (s : Session) :
    (¬ s.writer.Fits (options.listing program) → ∀ fuel, (execute options fuel program).run.run s =
        some (.error (.output .closed),
          ⟨s.writer.taking (options.listing program), s.journal.record (.programStarted program.size)⟩)) ∧
      ∀ (journal : Journal) (c : Conclusion Collector), (start program ({} : Collector) journal).Computes c →
        ∃ enough, ∀ fuel ≥ enough, ∃ left,
          (execute options fuel program).run.run s = some ((outcome options program s.writer c).1, left) ∧
          left.writer.accepted = s.writer.accepted ++ s.writer.kept (outcome options program s.writer c).2 := by
  refine ⟨execute_of_listing_cut, ?_⟩
  intro journal c hc
  by_cases hfits : s.writer.Fits (options.listing program)
  · obtain ⟨enough, hrun⟩ := run_computes hc options
      ⟨s.writer.taking (options.listing program), s.journal.record (.programStarted program.size)⟩
    refine ⟨enough, ?_⟩
    intro fuel hle
    obtain ⟨journal', hr⟩ := hrun fuel hle
    rw [Writer.taking_taking] at hr
    exact ⟨_, execute_of_run hfits hr, rfl⟩
  · refine ⟨0, ?_⟩
    intro fuel _
    have hout : outcome options program s.writer c = (.error (.output .closed), options.listing program) := if_pos hfits
    rw [hout]
    exact ⟨_, execute_of_listing_cut hfits fuel, rfl⟩

def showThenUnderflow : Program := ((Program.empty.emitPush Number.nan).emit .out).emit .out

theorem execute_precedence_showThenUnderflow :
    (∀ fuel, ∃ left, (execute { disassemble := true } fuel showThenUnderflow).run.run
        ⟨{ room := some 3 }, .silent⟩ = some (.error (.output .closed), left) ∧
          left.writer.accepted = "000".toUTF8) ∧
      ∃ enough, ∀ fuel ≥ enough, ∃ state left,
        (execute { trace := true, dumpState := true } fuel showThenUnderflow).run.run
          ⟨{ room := some 2, flushable := false }, .silent⟩ =
            some (.error (.machine (.stackUnderflow 1 0) state), left) ∧ left.writer.accepted = "Na".toUTF8 := by
  constructor
  · intro fuel
    have hcut : ¬ Writer.Fits { room := some 3 } (Options.listing { disassemble := true } showThenUnderflow) := by
      decide +kernel
    obtain ⟨hlisting, _⟩ := execute_precedence { disassemble := true } showThenUnderflow ⟨{ room := some 3 }, .silent⟩
    exact ⟨_, hlisting hcut fuel, by decide +kernel⟩
  · have hrun : ((start showThenUnderflow ({} : Collector) .silent).run 3).map (fun ending =>
        ((conclusion ending).fault?, (conclusion ending).output.values)) =
          some (some (.stackUnderflow 1 0), [Number.nan]) := by
      decide +kernel
    obtain ⟨ending, hending, hshown⟩ := Option.map_eq_some_iff.mp hrun
    obtain ⟨hfault, hvalues⟩ := Prod.mk.inj hshown
    have hlines : Number.lines [Number.nan] = "NaN\n" := by decide +kernel
    have hkept : ByteArray.empty ++ Writer.kept { room := some 2, flushable := false } "NaN\n" = "Na".toUTF8 := by
      decide +kernel
    let w : Writer := { room := some 2, flushable := false }
    have hout : outcome { trace := true, dumpState := true } showThenUnderflow w (conclusion ending) =
        (.error (.machine (.stackUnderflow 1 0) (conclusion ending).state), "NaN\n") := by
      simp [outcome, hfault, hvalues, hlines, Options.listing, Writer.Fits]
    obtain ⟨_, hexecute⟩ := execute_precedence { trace := true, dumpState := true } showThenUnderflow ⟨w, .silent⟩
    obtain ⟨enough, hfuel⟩ := hexecute .silent (conclusion ending) ⟨3, ending, hending, rfl⟩
    refine ⟨enough, ?_⟩
    intro fuel hle
    obtain ⟨left, hrun, haccepted⟩ := hfuel fuel hle
    rw [hout] at hrun haccepted
    exact ⟨_, left, hrun, haccepted.trans hkept⟩

end Session

end StackMachine
