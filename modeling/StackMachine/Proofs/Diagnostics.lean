import StackMachine.Proofs.Runs

namespace StackMachine

def Fault.Describes (s : State) : Fault → Prop
  | illegalValue pc name => s.rom.cell? pc = some (.label name) ∧ s.pc = pc + 1
  | romOverrun pc size => pc = size ∧ size = s.rom.size ∧ s.pc = size ∧ s.StandsAfter .push
  | illegalOpcode code =>
    ∃ i, s.pc = i + 1 ∧ s.rom.cell? i = some (.number code) ∧ Opcode.ofNumber? code = none
  | stackUnderflow needed depth =>
    depth < needed ∧ ∃ op, s.StandsAfter op ∧ op ≠ .nop ∧ op ≠ .push ∧ op ≠ .halt
  | illegalAddress a => a.less Number.zero ∧ (s.StandsAfter .load ∨ s.StandsAfter .store)
  | illegalJumpTarget target size =>
    size = s.rom.size ∧ (∃ op, s.StandsAfter op ∧ op.isBranch = true) ∧ ∀ i, ¬ s.rom.HasIndex target i

namespace State

theorem describes_of_ends {s t : State} {op : Opcode} {fault : Fault} (hop : s.nextOpcode? = some op)
    (he : op.instruction.Ends s.advance (.error fault t)) : fault.Describes t := by
  have hlt := nextOpcode?_lt_size hop
  generalize hi : op.instruction = i at he
  have hk := Opcode.of_instruction hi
  cases he with
  | pushLabel h => exact ⟨h, rfl⟩
  | pushOverrun h =>
    obtain rfl : op = .push := hk
    have he : s.rom.size = s.pc + 1 := Nat.le_antisymm ((s.rom.cell?_eq_none_iff _).mp h) hlt
    exact ⟨he.symm, rfl, he.symm, s.pc, rfl, hop⟩
  | loadEmpty h =>
    obtain rfl : op = .load := hk
    exact ⟨Nat.one_pos, .load, ⟨s.pc, rfl, hop⟩, nofun, nofun, nofun⟩
  | loadAddress h ha =>
    obtain rfl : op = .load := hk
    exact ⟨ha, .inl ⟨s.pc, rfl, hop⟩⟩
  | storeEmpty h =>
    obtain rfl : op = .store := hk
    exact ⟨Nat.one_pos, .store, ⟨s.pc, rfl, hop⟩, nofun, nofun, nofun⟩
  | storeSingle h =>
    obtain rfl : op = .store := hk
    exact ⟨Nat.one_pos, .store, ⟨s.pc, rfl, hop⟩, nofun, nofun, nofun⟩
  | storeAddress h ha =>
    obtain rfl : op = .store := hk
    exact ⟨ha, .inr ⟨s.pc, rfl, hop⟩⟩
  | outEmpty h =>
    obtain rfl : op = .out := hk
    exact ⟨Nat.one_pos, .out, ⟨s.pc, rfl, hop⟩, nofun, nofun, nofun⟩
  | operateUnderflow h => exact ⟨h, op, ⟨s.pc, rfl, hop⟩, Opcode.takes_operands (.inl hk.1)⟩
  | branchEmpty h => exact ⟨Nat.one_pos, op, ⟨s.pc, rfl, hop⟩, Opcode.takes_operands (.inr hk.1)⟩
  | branchUnderflow h hl => exact ⟨hl, op, ⟨s.pc, rfl, hop⟩, Opcode.takes_operands (.inr hk.1)⟩
  | branchTarget h hl ht hx => exact ⟨rfl, ⟨op, ⟨s.pc, rfl, hop⟩, hk.1⟩, hx⟩

end State

namespace Machine

variable {σ : Type} [Sink σ]

theorem step_describes {m next : Machine σ} {fault : Fault} (hm : m.state.Inside)
    (h : step m = .error fault next) : fault.Describes next.state := by
  have hr := not_halted_of_step_error h
  have hc := step_cycle hr
  rw [h] at hc
  cases hc with
  | overrun hc => exact absurd (hm hr) (Nat.not_lt.mpr ((m.state.rom.cell?_eq_none_iff _).mp hc))
  | label hc => exact ⟨hc, rfl⟩
  | illegalOpcode hc ho => exact ⟨m.state.pc, rfl, hc, ho⟩
  | fault hop he => exact State.describes_of_ends hop he

theorem run_fault_describes (program : Program) (output : σ) (journal : Journal) (fuel : Nat) (fault : Fault)
    (final : Machine σ) (h : (start program output journal).run fuel = some (.error fault final)) :
    final.state.rom = program ∧ final.state.halted = false ∧ fault.Describes final.state := by
  have hs := run_sound (State.initial_sound program) h
  obtain ⟨last, hi, next, hn, rfl⟩ := run_stops (fun m => m.state.Inside) (fun _ hs => step_ok_inside hs)
    (State.initial_inside program) h
  have hr := not_halted_of_step_error hn
  have hd := step_describes hi hn
  exact ⟨hs.rom, (faulted_of_step hr hn).1.halted.trans hr, hd⟩

theorem run_fault_describes_truncated_push : ∃ final,
    (start ((Program.empty.emit .nop).emit .push) ({} : Collector) .silent).run 2 =
        some (.error (.romOverrun 2 2) final) ∧
      final.state.rom = (Program.empty.emit .nop).emit .push ∧ final.state.halted = false ∧
      (Fault.romOverrun 2 2).Describes final.state := by
  let m := start ((Program.empty.emit .nop).emit .push) ({} : Collector) .silent
  have hnop : m.state.nextOpcode? = some .nop := State.nextOpcode?_of_number rfl
  have hs : step m = .ok true (m.completed .nop .quiet m.state.advance) :=
    step_of_cycle_ok rfl (cycle_of_execute_ok hnop rfl)
  have hpush : (m.completed .nop .quiet m.state.advance).state.nextOpcode? = some .push :=
    State.nextOpcode?_of_number rfl
  have hf : step (m.completed .nop .quiet m.state.advance) = .error (.romOverrun 2 2) _ :=
    step_of_cycle_error rfl (cycle_of_execute_error hpush rfl)
  have h := (run_of_running hs 1).trans (run_of_fault hf 0)
  exact ⟨_, h, run_fault_describes _ _ _ _ _ _ h⟩

end Machine

end StackMachine
