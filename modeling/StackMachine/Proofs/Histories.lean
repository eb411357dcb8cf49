import StackMachine.Proofs.Runs

namespace StackMachine.Machine

variable {σ : Type} [Sink σ]

inductive Call (m : Machine σ) : Option Fault → Machine σ → Prop
  | step {running : Bool} {next : Machine σ} (h : step m = .ok running next) : Call m none next
  | stepFault {fault : Fault} {next : Machine σ} (h : Machine.step m = .error fault next) : Call m (some fault) next
  | run {fuel : Nat} {next : Machine σ} (h : m.run fuel = some (.ok () next)) : Call m none next
  | runFault {fuel : Nat} {fault : Fault} {next : Machine σ} (h : m.run fuel = some (.error fault next)) :
      Call m (some fault) next

/-- The results of the calls are listed from the latest to the first. -/
inductive History (m : Machine σ) : List (Option Fault) → Machine σ → Prop
  | nil : History m [] m
  | call {results : List (Option Fault)} {result : Option Fault} {next last : Machine σ}
      (h : History m results next) (hc : Call next result last) : History m (result :: results) last

section Keeps

variable (inv : Machine σ → Prop)
  (hok : ∀ {m next : Machine σ} {running : Bool}, inv m → Machine.step m = .ok running next → inv next)
  (herror : ∀ {m next : Machine σ} {fault : Fault}, inv m → Machine.step m = .error fault next → inv next)
  (hrecord : ∀ {m : Machine σ} (e : Event), inv m → inv (m.record e))

include hok herror hrecord

theorem Call.keeps {m next : Machine σ} {result : Option Fault} (hm : inv m) (h : Call m result next) : inv next := by
  cases h with
  | step h => exact hok hm h
  | stepFault h => exact herror hm h
  | run h => exact run_keeps inv hok herror hrecord hm h
  | runFault h => exact run_keeps inv hok herror hrecord hm h

theorem History.keeps {m next : Machine σ} {results : List (Option Fault)} (hm : inv m)
    (h : History m results next) : inv next := by
  induction h with
  | nil => exact hm
  | call _ hc ih => exact hc.keeps inv hok herror hrecord ih

end Keeps

theorem Call.inside {m next : Machine σ} (h : Call m none next) : next.state.Inside := by
  cases h with
  | step h => exact step_ok_inside h
  | run h =>
    obtain ⟨last, _, final, hf, rfl⟩ := run_stops (fun _ => True) (fun _ _ => trivial) trivial h
    have hi := step_ok_inside hf
    exact hi

theorem History.sound {program : Program} {m next : Machine σ} {results : List (Option Fault)}
    (hm : m.state.Sound program) (h : History m results next) : next.state.Sound program :=
  h.keeps (fun m => m.state.Sound program) step_ok_sound step_error_sound (fun _ hm => hm) hm

theorem History.inside {m next : Machine σ} {results : List (Option Fault)} (hm : m.state.Inside)
    (h : History m results next) (hn : ∀ result ∈ results, result = none) : next.state.Inside := by
  cases h with
  | nil => exact hm
  | call _ hc =>
    cases hn _ List.mem_cons_self
    exact hc.inside

theorem History.exists_fault {m next : Machine σ} {results : List (Option Fault)} (hm : m.state.Inside)
    (h : History m results next) (hn : ¬ next.state.Inside) : ∃ fault, some fault ∈ results := by
  cases h with
  | nil => exact absurd hm hn
  | @call results result _ _ _ hc =>
    cases result with
    | none => exact absurd hc.inside hn
    | some fault => exact ⟨fault, List.mem_cons_self⟩

structure Unchanged (m next : Machine σ) : Prop where
  state : next.state = m.state
  output : next.output = m.output
  cycles : next.cycles = m.cycles

theorem Call.of_halted {m next : Machine σ} {result : Option Fault} (hm : m.state.halted = true)
    (h : Call m result next) : result = none ∧ m.Unchanged next := by
  cases h with
  | step h =>
    rw [step_of_halted hm] at h
    cases h
    exact ⟨rfl, rfl, rfl, rfl⟩
  | stepFault h =>
    rw [step_of_halted hm] at h
    cases h
  | @run fuel next h =>
    cases fuel with
    | zero => cases h
    | succ fuel =>
      rw [run_of_stopped (step_of_halted hm)] at h
      cases h
      exact ⟨rfl, rfl, rfl, rfl⟩
  | @runFault fuel fault next h =>
    cases fuel with
    | zero => cases h
    | succ fuel =>
      rw [run_of_stopped (step_of_halted hm)] at h
      cases h

theorem History.of_halted {m next : Machine σ} {results : List (Option Fault)} (hm : m.state.halted = true)
    (h : History m results next) : (∀ result ∈ results, result = none) ∧ m.Unchanged next := by
  induction h with
  | nil => exact ⟨nofun, rfl, rfl, rfl⟩
  | call _ hc ih =>
    obtain ⟨hn, hs⟩ := ih
    obtain ⟨rfl, ht⟩ := hc.of_halted (hs.state ▸ hm)
    refine ⟨?_, ht.state.trans hs.state, ht.output.trans hs.output, ht.cycles.trans hs.cycles⟩
    intro result hmem
    rcases List.mem_cons.mp hmem with rfl | hmem
    · rfl
    · exact hn result hmem

theorem step_of_pc_eq_size {m : Machine σ} (hr : m.state.halted = false) (h : m.state.pc = m.state.rom.size) :
    step m = .error (.romOverrun m.state.rom.size m.state.rom.size) m := by
  have hc : m.state.rom.cell? m.state.pc = none := (m.state.rom.cell?_eq_none_iff _).mpr (Nat.le_of_eq h.symm)
  have hs := step_of_overrun hr hc
  rwa [h] at hs

theorem history_invariant (program : Program) (output : σ) (journal : Journal) (results : List (Option Fault))
    (m : Machine σ) (h : History (start program output journal) results m) :
    m.state.Sound program ∧
      (m.state.halted = false → (∀ result ∈ results, result = none) → m.state.pc < program.size) ∧
      (m.state.halted = true → ∀ later next, History m later next →
        (∀ result ∈ later, result = none) ∧ m.Unchanged next ∧ step next = .ok false next ∧
          ∀ fuel, ∃ final, next.run (fuel + 1) = some (.ok () final) ∧ next.Unchanged final) ∧
      (m.state.halted = false → m.state.pc = program.size →
        (∃ fault, some fault ∈ results) ∧ step m = .error (.romOverrun program.size program.size) m) := by
  have hs := h.sound (State.initial_sound program)
  have hi := h.inside (State.initial_inside program)
  refine ⟨hs, ?_, ?_, ?_⟩
  · intro hr hn
    exact hs.rom ▸ hi hn hr
  · intro hr later next hl
    obtain ⟨hn, hsame⟩ := hl.of_halted hr
    have hnext : next.state.halted = true := hsame.state ▸ hr
    have hstep := step_of_halted hnext
    exact ⟨hn, hsame, hstep, fun fuel => ⟨_, run_of_stopped hstep fuel, rfl, rfl, rfl⟩⟩
  · intro hr hpc
    rw [← hs.rom] at hpc ⊢
    have hn : ¬ m.state.Inside := fun hin => Nat.ne_of_lt (hin hr) hpc
    exact ⟨h.exists_fault (State.initial_inside program) hn, step_of_pc_eq_size hr hpc⟩

theorem history_invariant_truncated_push : ∃ m,
    History (start (Program.empty.emit .push) ({} : Collector) .silent) [some (.romOverrun 1 1)] m ∧
      m.state.halted = false ∧ m.state.pc = 1 ∧ step m = .error (.romOverrun 1 1) m := by
  have hop : (State.initial (Program.empty.emit .push)).nextOpcode? = some .push := State.nextOpcode?_of_number rfl
  have hf : step (start (Program.empty.emit .push) ({} : Collector) .silent) = .error (.romOverrun 1 1) _ :=
    step_of_cycle_error rfl (cycle_of_execute_error hop rfl)
  have h := History.nil.call (.stepFault hf)
  exact ⟨_, h, rfl, rfl, ((history_invariant _ _ _ _ _ h).2.2.2 rfl rfl).2⟩

end StackMachine.Machine
