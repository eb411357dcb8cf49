import StackMachine.Proofs.Runs
import StackMachine.Proofs.Sweep

namespace StackMachine

def State.TakesBranch (s : State) : Prop := ∃ op offset, s.nextOpcode? = some op ∧ s.Takes op offset

def Fault.isFetch : Fault → Bool
  | illegalValue .. | romOverrun .. | illegalOpcode .. => true
  | _ => false

inductive Disassembly.Content.Unfetchable : Content → Prop
  | data (cell : Cell) : Unfetchable (.data cell)
  | label (name : String) : Unfetchable (.instruction .push [some (.label name)])
  | missing : Unfetchable (.instruction .push [none])

theorem State.not_takesBranch {s : State} {op : Opcode} (h : s.nextOpcode? = some op) (hb : op.isBranch = false) :
    ¬ s.TakesBranch := by
  rintro ⟨_, offset, hop, _, _, _, hj⟩
  cases h.symm.trans hop
  cases hj <;> cases hb

theorem Row.pc_eq {s : State} {op : Opcode} {change : Change s} (h : Row s op change) :
    change.pc = s.pc + 1 + op.literalCount ∨
      ∃ operands offset, change.consumed = operands ++ [offset] ∧ op.Jumps operands := by
  cases h with
  | @jump _ operands offset _ h _ => exact .inr ⟨operands, offset, rfl, h⟩
  | fallThrough hb _ _ =>
    rw [Opcode.literalCount_of_ne_push (Opcode.takes_operands (.inr hb)).2.1]
    exact .inl rfl
  | _ => exact .inl rfl

theorem Row.push_literal {s : State} {change : Change s} (h : Row s .push change) :
    ∃ x, s.rom.cell? (s.pc + 1) = some (.number x) ∧ change.consumed = [] ∧ change.results = [x] := by
  cases h with
  | push h => exact ⟨_, h, rfl, rfl⟩
  | jump h => cases h
  | fallThrough hb => cases hb

namespace Machine

variable {σ : Type} [Sink σ]

structure StepsStraight (m next : Machine σ) : Prop where
  running : m.state.halted = false
  step : ∃ running, Machine.step m = .ok running next
  straight : ¬ m.state.TakesBranch

structure ShownBy (m next : Machine σ) (op : Opcode) (entry : Disassembly.Entry) : Prop where
  opcode : ∃ change, m.Completes op change next
  address : entry.address = m.state.pc
  plain : op ≠ .push → entry.line = Disassembly.addressText m.state.pc ++ "  " ++ op.mnemonic ++ "\n"
  push : op = .push → ∃ x, next.state.stack = x :: m.state.stack ∧
    entry.line = Disassembly.addressText m.state.pc ++ "  " ++ op.mnemonic ++ " " ++ x.text ++ "\n"

theorem StepsStraight.completes {m next : Machine σ} (h : m.StepsStraight next) :
    ∃ op change, m.state.nextOpcode? = some op ∧ m.Completes op change next ∧
      next.state.pc = m.state.pc + 1 + op.literalCount := by
  obtain ⟨running, hs⟩ := h.step
  rcases step_ok_cases hs with ⟨hh, _, _⟩ | ⟨_, op, change, hop, hc⟩
  · rw [h.running] at hh
    cases hh
  · refine ⟨op, change, hop, hc, hc.pc.trans ?_⟩
    rcases hc.row.pc_eq with hpc | ⟨operands, offset, he, hj⟩
    · exact hpc
    · obtain ⟨below, hb, _⟩ := hc.stack
      rw [he, ← List.append_assoc] at hb
      exact absurd ⟨op, offset, hop, below, operands, hb, hj⟩ h.straight

theorem Completes.stack_push {m next : Machine σ} {change : Change m.state} (h : m.Completes .push change next) :
    ∃ x, m.state.rom.cell? (m.state.pc + 1) = some (.number x) ∧ next.state.stack = x :: m.state.stack := by
  obtain ⟨x, hx, hconsumed, hresults⟩ := h.row.push_literal
  obtain ⟨below, hb, hn⟩ := h.stack
  rw [hconsumed, List.append_nil] at hb
  rw [hresults, ← hb, ← Stack.bottomFirst_push] at hn
  exact ⟨x, hx, List.reverse_injective hn⟩

theorem StepsStraight.shown {m next : Machine σ} (h : m.StepsStraight next) : ∃ op entry,
    m.state.nextOpcode? = some op ∧ m.ShownBy next op entry ∧
      Disassembly.entriesFrom m.state.rom m.state.pc =
        entry :: Disassembly.entriesFrom next.state.rom next.state.pc := by
  obtain ⟨op, change, hop, hc, hpc⟩ := h.completes
  rw [hc.rom, hpc]
  by_cases hp : op = .push
  · subst hp
    obtain ⟨x, hx, hstack⟩ := hc.stack_push
    have he := Disassembly.entriesFrom_of_push hop
    rw [hx] at he
    have hline := Disassembly.line_literal m.state.pc .push (.number x)
    exact ⟨.push, _, hop, ⟨⟨change, hc⟩, rfl, fun hn => absurd rfl hn, fun _ => ⟨x, hstack, hline⟩⟩, he⟩
  · have hline := Disassembly.line_instruction m.state.pc op
    rw [Opcode.literalCount_of_ne_push hp]
    exact ⟨op, _, hop, ⟨⟨change, hc⟩, rfl, fun _ => hline, fun h => absurd h hp⟩,
      Disassembly.entriesFrom_of_opcode hop hp⟩

structure Follows (program : Program) (k : Nat) (m : Machine σ) : Prop where
  rom : m.state.rom = program
  inside : m.state.Inside
  entries : program.disassembly.drop k = Disassembly.entriesFrom program m.state.pc

omit [Sink σ] in
theorem Follows.entry {program : Program} {k : Nat} {m : Machine σ} (h : Follows program k m)
    {entry : Disassembly.Entry} {rest : List Disassembly.Entry}
    (he : Disassembly.entriesFrom program m.state.pc = entry :: rest) : program.disassembly[k]? = some entry := by
  have hk : (program.disassembly.drop k)[0]? = program.disassembly[k]? := List.getElem?_drop
  rw [h.entries, he] at hk
  exact hk.symm

theorem Follows.step {program : Program} {k : Nat} {m next : Machine σ} (h : Follows program k m)
    (hs : m.StepsStraight next) : Follows program (k + 1) next := by
  obtain ⟨running, hstep⟩ := hs.step
  obtain ⟨_, change, _, hc, _⟩ := hs.completes
  obtain ⟨_, entry, _, _, he⟩ := hs.shown
  have hrom := hc.rom.trans h.rom
  refine ⟨hrom, step_ok_inside hstep, ?_⟩
  rw [h.rom, hrom, ← h.entries] at he
  rw [← List.drop_drop, he]
  rfl

theorem follows_of_straight {program : Program} {output : σ} {journal : Journal} {trail : Nat → Machine σ} {n : Nat}
    (hstart : trail 0 = start program output journal) (hs : ∀ k < n, (trail k).StepsStraight (trail (k + 1))) :
    ∀ k ≤ n, Follows program k (trail k) := by
  intro k hk
  induction k with
  | zero =>
    rw [hstart]
    exact ⟨rfl, State.initial_inside program, rfl⟩
  | succ k ih => exact (ih (by omega)).step (hs k (by omega))

theorem exists_unfetchable {m next : Machine σ} {fault : Fault} (hm : m.state.Inside)
    (h : step m = .error fault next) (hf : fault.isFetch = true) : ∃ entry rest,
    Disassembly.entriesFrom m.state.rom m.state.pc = entry :: rest ∧ entry.address = m.state.pc ∧
      entry.content.Unfetchable := by
  have hr := not_halted_of_step_error h
  have hc := step_cycle hr
  rw [h] at hc
  cases hc with
  | overrun hc => exact absurd (hm hr) (Nat.not_lt.mpr ((m.state.rom.cell?_eq_none_iff _).mp hc))
  | label hc => exact ⟨_, _, Disassembly.entriesFrom_of_data hc rfl, rfl, .data _⟩
  | illegalOpcode hc ho => exact ⟨_, _, Disassembly.entriesFrom_of_data hc ho, rfl, .data _⟩
  | @fault op _ _ hop he =>
    generalize hi : op.instruction = i at he
    have hk := Opcode.of_instruction hi
    cases he with
    | @pushLabel name hl =>
      obtain rfl : op = .push := hk
      have hl' : m.state.rom.cell? (m.state.pc + 1) = some (.label name) := hl
      have hp := Disassembly.entriesFrom_of_push hop
      rw [hl'] at hp
      exact ⟨_, _, hp, rfl, .label name⟩
    | pushOverrun hl =>
      obtain rfl : op = .push := hk
      have hl' : m.state.rom.cell? (m.state.pc + 1) = none := hl
      have hp := Disassembly.entriesFrom_of_push hop
      rw [hl'] at hp
      exact ⟨_, _, hp, rfl, .missing⟩
    | _ => cases hf

theorem steps_follow_disassembly (program : Program) (output : σ) (journal : Journal) (n : Nat)
    (trail : Nat → Machine σ) (hstart : trail 0 = start program output journal)
    (hs : ∀ k < n, (trail k).StepsStraight (trail (k + 1))) :
    (∀ k < n, ∃ op entry, (trail k).state.nextOpcode? = some op ∧ program.disassembly[k]? = some entry ∧
        (trail k).ShownBy (trail (k + 1)) op entry ∧
        Literal.hexValue? (Disassembly.addressText (trail k).state.pc).toList = some (trail k).state.pc ∧
        4 ≤ (Disassembly.addressText (trail k).state.pc).length) ∧
      ∀ fault next, (trail n).state.halted = false → step (trail n) = .error fault next → fault.isFetch = true →
        ∃ entry, program.disassembly[n]? = some entry ∧ entry.address = (trail n).state.pc ∧
          entry.content.Unfetchable := by
  have hfollows := follows_of_straight hstart hs
  constructor
  · intro k hk
    have hfk := hfollows k (by omega)
    obtain ⟨op, entry, hop, hshown, he⟩ := (hs k hk).shown
    rw [hfk.rom] at he
    exact ⟨op, entry, hop, hfk.entry he, hshown, Disassembly.hexValue?_addressText _,
      Disassembly.four_le_length_addressText _⟩
  · intro fault next _ hstep hf
    have hfn := hfollows n (Nat.le_refl n)
    obtain ⟨entry, rest, he, ha, hu⟩ := exists_unfetchable hfn.inside hstep hf
    rw [hfn.rom] at he
    exact ⟨entry, hfn.entry he, ha, hu⟩

def pushThenLabel : Program := (Program.empty.emitPush (Number.ofNat 2)).push (.label "end")

theorem steps_follow_disassembly_pushThenLabel : ∃ trail : Nat → Machine Collector,
    trail 0 = start pushThenLabel {} .silent ∧ (∀ k < 1, (trail k).StepsStraight (trail (k + 1))) ∧
      (∃ op entry, pushThenLabel.disassembly[0]? = some entry ∧ (trail 0).ShownBy (trail 1) op entry) ∧
      ∃ entry, pushThenLabel.disassembly[1]? = some entry ∧ entry.address = 2 ∧ entry.content.Unfetchable := by
  let m := start pushThenLabel ({} : Collector) .silent
  have hop : m.state.nextOpcode? = some .push := State.nextOpcode?_of_number rfl
  let next := m.completed .push .quiet { m.state with pc := 2, stack := [Number.ofNat 2] }
  have hstep : step m = .ok true next := step_of_cycle_ok rfl (cycle_of_execute_ok hop rfl)
  have hlabel : next.state.rom.cell? next.state.pc = some (.label "end") := rfl
  have hfault : step next = .error (.illegalValue 2 "end") _ :=
    step_of_cycle_error rfl (cycle_of_fetch_error (Action.fetchOpcode_error (Action.fetch_label hlabel)))
  let trail : Nat → Machine Collector := fun k => if k = 0 then m else next
  have hs : ∀ k < 1, (trail k).StepsStraight (trail (k + 1)) := by
    intro k hk
    obtain rfl : k = 0 := by omega
    exact ⟨rfl, ⟨true, hstep⟩, State.not_takesBranch hop rfl⟩
  obtain ⟨hshown, hlast⟩ := steps_follow_disassembly pushThenLabel ({} : Collector) .silent 1 trail rfl hs
  obtain ⟨op, entry, _, he, hm, _⟩ := hshown 0 Nat.one_pos
  exact ⟨trail, rfl, hs, ⟨op, entry, he, hm⟩, hlast _ _ rfl hfault rfl⟩

end Machine

end StackMachine
