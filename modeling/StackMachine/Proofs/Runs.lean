import StackMachine.Proofs.FaultFrame
import StackMachine.Proofs.StepCorrectness

namespace StackMachine

theorem Program.isEmpty_iff_size (p : Program) : p.isEmpty = true ↔ p.size = 0 := decide_eq_true_iff

namespace State

def StandsAfter (s : State) (op : Opcode) : Prop :=
  ∃ i, s.pc = i + 1 ∧ (s.rom.cell? i).bind Cell.opcode? = some op

structure Sound (program : Program) (s : State) : Prop where
  rom : s.rom = program
  pc_le : s.pc ≤ program.size
  halted : s.halted = true → s.pc = program.size ∨ s.StandsAfter .halt

/-- Every step that succeeds ends so, but a fault can leave the counter of a running machine at the end. -/
def Inside (s : State) : Prop := s.halted = false → s.pc < s.rom.size

theorem initial_sound (program : Program) : (initial program).Sound program where
  rom := rfl
  pc_le := Nat.zero_le _
  halted := by
    intro h
    exact .inl (program.isEmpty_iff_size.mp h).symm

theorem initial_inside (program : Program) : (initial program).Inside := by
  intro h
  apply Nat.pos_of_ne_zero
  intro hz
  rw [show (initial program).halted = true from program.isEmpty_iff_size.mpr hz] at h
  cases h

theorem pc_le_of_ends {s t : State} {i : Instruction} {fault : Fault} (hs : s.pc < s.rom.size)
    (he : i.Ends s.advance (.error fault t)) : t.pc ≤ s.rom.size := by
  cases he with
  | pushLabel h => exact Program.lt_size_of_cell? h
  | _ => exact hs

end State

theorem Row.pc_le {s : State} {op : Opcode} {change : Change s} (h : Row s op change) (hs : s.pc < s.rom.size) :
    change.pc ≤ s.rom.size := by
  cases h with
  | push h => exact Program.lt_size_of_cell? h
  | jump _ hi => exact Nat.le_of_lt hi.2.1
  | _ => exact hs

theorem Row.pc_halt {s : State} {change : Change s} (h : Row s .halt change) : change.pc = s.pc + 1 := by
  cases h with
  | jump h => cases h
  | fallThrough hb => cases hb
  | halt => rfl

namespace Machine

variable {σ : Type} [Sink σ]

theorem step_ok_cases {m next : Machine σ} {running : Bool} (h : step m = .ok running next) :
    (m.state.halted = true ∧ running = false ∧ next = m) ∨
      (running = !next.state.halted ∧
        ∃ op change, m.state.nextOpcode? = some op ∧ m.Completes op change next) := by
  cases hr : m.state.halted with
  | true =>
    rw [step_of_halted hr] at h
    cases h
    exact .inl ⟨rfl, rfl, rfl⟩
  | false =>
    have hc := step_cycle hr
    rw [h] at hc
    cases hc with
    | complete hop he =>
      obtain ⟨change, ha⟩ := State.exists_applied he
      exact .inr ⟨rfl, _, change, hop, completes_of_applied hr ha⟩

theorem step_ok_rom {m next : Machine σ} {running : Bool} (h : step m = .ok running next) :
    next.state.rom = m.state.rom := by
  rcases step_ok_cases h with ⟨_, _, rfl⟩ | ⟨_, _, _, _, hc⟩
  · rfl
  · exact hc.rom

theorem step_ok_halted {m next : Machine σ} {running : Bool} (h : step m = .ok running next) :
    next.state.halted = !running := by
  rcases step_ok_cases h with ⟨hr, hrunning, rfl⟩ | ⟨hrunning, _⟩
  · simp [hr, hrunning]
  · simp [hrunning]

theorem not_halted_of_step_running {m next : Machine σ} (h : step m = .ok true next) : m.state.halted = false := by
  cases hr : m.state.halted with
  | false => rfl
  | true => simp [step_of_halted hr] at h

theorem step_ok_inside {m next : Machine σ} {running : Bool} (h : step m = .ok running next) :
    next.state.Inside := by
  intro hn
  rcases step_ok_cases h with ⟨hr, _, rfl⟩ | ⟨_, op, change, _, hc⟩
  · rw [hr] at hn
    cases hn
  · rw [hc.rom, hc.pc]
    apply Nat.lt_of_not_le
    intro hle
    rw [hc.halted.mpr (.inr hle)] at hn
    cases hn

theorem step_ok_sound {program : Program} {m next : Machine σ} {running : Bool} (hm : m.state.Sound program)
    (h : step m = .ok running next) : next.state.Sound program := by
  rcases step_ok_cases h with ⟨_, _, rfl⟩ | ⟨_, op, change, hop, hc⟩
  · exact hm
  · have hle : change.pc ≤ program.size := hm.rom ▸ hc.row.pc_le (State.nextOpcode?_lt_size hop)
    refine ⟨hc.rom.trans hm.rom, hc.pc ▸ hle, ?_⟩
    intro hn
    rcases hc.halted.mp hn with rfl | hge
    · exact .inr ⟨m.state.pc, hc.pc.trans hc.row.pc_halt, hc.rom ▸ hop⟩
    · rw [hm.rom] at hge
      exact .inl (hc.pc.trans (Nat.le_antisymm hle hge))

theorem not_halted_of_step_error {m next : Machine σ} {fault : Fault} (h : step m = .error fault next) :
    m.state.halted = false := by
  cases hr : m.state.halted with
  | false => rfl
  | true =>
    rw [step_of_halted hr] at h
    cases h

theorem step_error_pc_le {m next : Machine σ} {fault : Fault} (hm : m.state.pc ≤ m.state.rom.size)
    (h : step m = .error fault next) : next.state.pc ≤ m.state.rom.size := by
  have hc := step_cycle (not_halted_of_step_error h)
  rw [h] at hc
  cases hc with
  | overrun _ => exact hm
  | label hc => exact Program.lt_size_of_cell? hc
  | illegalOpcode hc _ => exact Program.lt_size_of_cell? hc
  | fault hop he => exact State.pc_le_of_ends (State.nextOpcode?_lt_size hop) he

theorem step_error_sound {program : Program} {m next : Machine σ} {fault : Fault} (hm : m.state.Sound program)
    (h : step m = .error fault next) : next.state.Sound program := by
  have hr := not_halted_of_step_error h
  have hf := (faulted_of_step hr h).1
  have hle := step_error_pc_le (hm.rom ▸ hm.pc_le) h
  refine ⟨hf.rom.trans hm.rom, hm.rom ▸ hle, ?_⟩
  intro hn
  rw [hf.halted, hr] at hn
  cases hn

theorem run_of_running {m next : Machine σ} (h : step m = .ok true next) (fuel : Nat) :
    m.run (fuel + 1) = next.run fuel := by
  rw [run, h]

theorem run_of_fault {m next : Machine σ} {fault : Fault} (h : step m = .error fault next) (fuel : Nat) :
    m.run (fuel + 1) = some (.error fault (next.record (.faulted next.state.pc next.cycles fault))) := by
  rw [run, h]

theorem run_of_stopped {m next : Machine σ} (h : step m = .ok false next) (fuel : Nat) :
    m.run (fuel + 1) = some (.ok () (next.record (.halted next.state.pc next.cycles))) := by
  rw [run, h]

def StopsWith (m : Machine σ) : Ending σ → Prop
  | .ok _ final => ∃ next, step m = .ok false next ∧ final = next.record (.halted next.state.pc next.cycles)
  | .error fault final =>
    ∃ next, step m = .error fault next ∧ final = next.record (.faulted next.state.pc next.cycles fault)

theorem run_stops (inv : Machine σ → Prop) (hstep : ∀ {m next}, inv m → step m = .ok true next → inv next)
    {fuel : Nat} {m : Machine σ} {ending : Ending σ} (hm : inv m) (h : m.run fuel = some ending) :
    ∃ last, inv last ∧ last.StopsWith ending := by
  induction fuel generalizing m with
  | zero => cases h
  | succ fuel ih =>
    cases hs : step m with
    | error fault next =>
      rw [run_of_fault hs] at h
      cases h
      exact ⟨m, hm, next, hs, rfl⟩
    | ok running next =>
      cases running with
      | true =>
        rw [run_of_running hs] at h
        exact ih (hstep hm hs) h
      | false =>
        rw [run_of_stopped hs] at h
        cases h
        exact ⟨m, hm, next, hs, rfl⟩

theorem run_keeps (inv : Machine σ → Prop) (hok : ∀ {m next running}, inv m → step m = .ok running next → inv next)
    (herror : ∀ {m next fault}, inv m → step m = .error fault next → inv next)
    (hrecord : ∀ {m} (e : Event), inv m → inv (m.record e)) {fuel : Nat} {m : Machine σ} {ending : Ending σ}
    (hm : inv m) (h : m.run fuel = some ending) : inv ending.machine := by
  obtain ⟨last, hl, hs⟩ := run_stops inv hok hm h
  cases ending with
  | ok _ final =>
    obtain ⟨next, hn, rfl⟩ := hs
    exact hrecord _ (hok hl hn)
  | error fault final =>
    obtain ⟨next, hn, rfl⟩ := hs
    exact hrecord _ (herror hl hn)

theorem run_sound {program : Program} {fuel : Nat} {m : Machine σ} {ending : Ending σ}
    (hm : m.state.Sound program) (h : m.run fuel = some ending) : ending.machine.state.Sound program :=
  run_keeps (fun m => m.state.Sound program) step_ok_sound step_error_sound (fun _ hm => hm) hm h

end Machine

end StackMachine
