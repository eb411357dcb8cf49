import StackMachine.Proofs.Lockstep
import StackMachine.Proofs.Rounding

/-!
Position independence. Jumps are relative, so a program runs the same wherever it stands, as long as the places of
all its cells are exact numbers. A jump may leave the program and still land on a cell that stands before it, and
that is the only difference that can show.
-/

namespace StackMachine

namespace Program

def prepend (pre : List Cell) (p : Program) : Program := ofCells (pre ++ p.cells.toList)

theorem size_prepend (pre : List Cell) (p : Program) : (p.prepend pre).size = p.size + pre.length := by
  simp [prepend, ofCells, size, Nat.add_comm]

theorem cell?_prepend (pre : List Cell) (p : Program) (i : Nat) :
    (p.prepend pre).cell? (i + pre.length) = p.cell? i := by
  simp [prepend, ofCells, cell?, List.getElem?_append]

theorem cell?_prepend_of_lt {pre : List Cell} (p : Program) {i : Nat} (h : i < pre.length) :
    (p.prepend pre).cell? i = pre[i]? := by
  simp [prepend, ofCells, cell?, List.getElem?_append, h]

end Program

namespace State

structure Relocated (pre : List Cell) (s t : State) : Prop where
  rom : t.rom = s.rom.prepend pre
  pc : t.pc = s.pc + pre.length
  halted : t.halted = s.halted
  stack : t.stack = s.stack
  memory : t.memory = s.memory

structure ExactlyRelocated (pre : List Cell) (s t : State) : Prop extends Relocated pre s t where
  pc_le : s.pc ≤ s.rom.size
  size_le : pre.length + s.rom.size ≤ 2 ^ 52

theorem ExactlyRelocated.hasIndex {pre : List Cell} {s t : State} (h : s.ExactlyRelocated pre t) {offset : Number}
    {i : Nat} (hi : s.rom.HasIndex (Number.ofNat s.pc + offset) i) :
    t.rom.HasIndex (Number.ofNat t.pc + offset) (i + pre.length) := by
  obtain ⟨hw, hlt, _⟩ := hi
  have hpc := h.pc_le
  have hsize := h.size_le
  rw [h.rom, h.pc]
  refine ⟨Number.add_isWhole_shift (by omega) (by omega) hw, ?_, ?_⟩
  · rw [Program.size_prepend]
    omega
  · rw [Number.indexCount]
    omega

end State

/--
The fault as it is `k` cells further on. Nothing is said of a jump to no cell of the program, since there may be one
among the cells before it.
-/
def Fault.moved (k : Nat) : Fault → Option Fault
  | illegalValue pc name => some (illegalValue (pc + k) name)
  | romOverrun pc size => some (romOverrun (pc + k) (size + k))
  | illegalJumpTarget _ _ => none
  | fault => some fault

theorem Fault.exists_moved {fault : Fault} (h : ∀ target size, fault ≠ illegalJumpTarget target size) (k : Nat) :
    ∃ fault', fault.moved k = some fault' := by
  cases fault with
  | illegalJumpTarget target size => exact absurd rfl (h target size)
  | _ => exact ⟨_, rfl⟩

namespace Action

theorem pop_relocated (pre : List Cell) :
    Alike Eq (State.ExactlyRelocated pre) (Fault.moved pre.length) pop pop := by
  apply pop_alike
  · exact fun h => h.stack
  · exact fun h _ => { h with stack := rfl }
  · exact fun _ _ => rfl

theorem popMany_relocated (pre : List Cell) (count : Nat) :
    Alike Eq (State.ExactlyRelocated pre) (Fault.moved pre.length) (popMany count) (popMany count) := by
  apply popMany_alike
  · exact fun h => h.stack
  · exact fun h _ => { h with stack := rfl }
  · exact fun _ _ => rfl

theorem jump_relocated (pre : List Cell) (offset : Number) :
    Alike Eq (State.ExactlyRelocated pre) (Fault.moved pre.length) (jump offset) (jump offset) := by
  intro s t h
  by_cases hi : ∃ i, s.rom.HasIndex (Number.ofNat s.pc + offset) i
  · obtain ⟨i, hi⟩ := hi
    rw [jump_index hi, jump_index (h.hasIndex hi)]
    exact .ok rfl { h with pc := rfl, pc_le := Nat.le_of_lt hi.2.1 }
  · rw [jump_no_index fun i h => hi ⟨i, h⟩]
    exact .exempt rfl _

end Action

theorem simulation_relocated (pre : List Cell) :
    Simulation (State.ExactlyRelocated pre) (Fault.moved pre.length) where
  cell h := by rw [h.rom, h.pc, Program.cell?_prepend]
  halted h := h.halted
  pastEnd h := by simp only [State.pastEnd, h.rom, h.pc, Program.size_prepend, Nat.add_le_add_iff_right]
  memory h := h.memory
  advance {s t} h _ hc := by
    have hpc : t.pc + 1 = s.pc + 1 + pre.length := by
      rw [h.pc]
      omega
    exact { h with pc := hpc, pc_le := Program.lt_size_of_cell? hc }
  setHalted h _ := { h with halted := rfl }
  setMemory h _ := { h with memory := rfl }
  pushAll h values := { h with stack := congrArg (Stack.pushAll · values) h.stack }
  pop := Action.pop_relocated pre
  popMany := Action.popMany_relocated pre
  jump := Action.jump_relocated pre
  overrun h := by rw [h.rom, h.pc, Program.size_prepend]; rfl
  label h _ := by rw [h.pc]; rfl
  opcode _ := rfl
  address _ := rfl

namespace Machine

variable {σ : Type} [Sink σ]

theorem inStep_of_pastEnd {pre : List Cell} {m m' : Machine σ} (h : m.state.Relocated pre m'.state)
    (hc : m.state.rom.cell? m.state.pc = none) :
    InStep (State.Relocated pre) (Fault.moved pre.length) m m' (step m) (step m') := by
  cases hr : m.state.halted with
  | true =>
    rw [step_of_halted hr, step_of_halted (h.halted.trans hr)]
    exact .ok [] rfl rfl h
  | false =>
    have hc' : m'.state.rom.cell? m'.state.pc = none := by rwa [h.rom, h.pc, Program.cell?_prepend]
    rw [step_of_overrun hr hc, step_of_overrun (h.halted.trans hr) hc', h.rom, h.pc, Program.size_prepend]
    exact .error rfl rfl rfl h

theorem inStep_relocated {pre : List Cell} {m m' : Machine σ} (h : m.state.Relocated pre m'.state)
    (hk : pre.length + m.state.rom.size ≤ 2 ^ 52) :
    InStep (State.Relocated pre) (Fault.moved pre.length) m m' (step m) (step m') := by
  cases hc : m.state.rom.cell? m.state.pc with
  | none => exact inStep_of_pastEnd h hc
  | some cell =>
    have he : m.state.ExactlyRelocated pre m'.state := ⟨h, Nat.le_of_lt (Program.lt_size_of_cell? hc), hk⟩
    exact (inStep (simulation_relocated pre) he).mono fun _ _ hn => hn.toRelocated

/-- The second machine first gets to where the first one is, and from there it does what the first one does. -/
structure RunsAfter (pre : List Cell) (m m' : Machine σ) : Prop where
  succeeds {n : Nat} (hn : ∀ j < n, (m.after j).Succeeds) {j : Nat} (hj : j < pre.length + n) :
    (m'.after j).Succeeds
  states {n : Nat} (hn : ∀ j < n, (m.after j).Succeeds) :
    (m.after n).state.Relocated pre (m'.after (pre.length + n)).state
  outputs {n : Nat} (hn : ∀ j < n, (m.after j).Succeeds) : (m'.after (pre.length + n)).output = (m.after n).output
  returns {c : Conclusion σ} (hc : m.Computes c)
      (hf : ∀ target size, c.fault? ≠ some (.illegalJumpTarget target size)) :
    ∃ c', m'.Computes c' ∧ ConcludesAlike (State.Relocated pre) (Fault.moved pre.length) c c'
  diverges (h : ∀ c, ¬ m.Computes c) (c' : Conclusion σ) : ¬ m'.Computes c'

theorem runsAfter_of_reaches {pre : List Cell} {m m' : Machine σ}
    (hs : m.state.ExactlyRelocated pre (m'.after pre.length).state) (ho : (m'.after pre.length).output = m.output)
    (hk : ∀ j < pre.length, (m'.after j).Succeeds) : RunsAfter pre m m' where
  succeeds {n} hn {j} hj := by
    by_cases hlt : j < pre.length
    · exact hk j hlt
    · obtain ⟨i, rfl⟩ := Nat.exists_eq_add_of_le (Nat.not_lt.mp hlt)
      have hi : i < n := by omega
      obtain ⟨running, _, hstep⟩ := (stepsAlike_after (simulation_relocated pre) hs hn hi).returns
      rw [after_add]
      exact ⟨running, _, hstep⟩
  states hn := by
    rw [after_add]
    exact (states_after (simulation_relocated pre) hs hn).toRelocated
  outputs hn := by
    rw [after_add]
    exact outputs_after (simulation_relocated pre) hs ho hn
  returns {c} hc hf := by
    have hmoved : ∀ fault, c.fault? = some fault → fault.moved pre.length ≠ none := by
      intro fault hfault hnone
      obtain ⟨fault', hsome⟩ := Fault.exists_moved (fun target size h => hf target size (h ▸ hfault)) pre.length
      cases hnone.symm.trans hsome
    obtain ⟨c', hc', hcc⟩ := concludes_of_simulation (simulation_relocated pre) hs ho hc hmoved
    exact ⟨c', (computes_after_iff hk c').mp hc', hcc.fault, hcc.state.toRelocated, hcc.output⟩
  diverges h c' hc' := by
    obtain ⟨c, hc⟩ := exists_computes_of_simulation (simulation_relocated pre) hs ((computes_after_iff hk c').mpr hc')
    exact h c hc

end Machine

def Cell.nop : Cell := .number Opcode.nop.number

def State.standingAt (s : State) (i : Nat) : State := { s with pc := i, halted := s.rom.size ≤ i }

theorem State.initial_standingAt (program : Program) : (initial program).standingAt 0 = initial program := by
  have hhalted : decide (program.size ≤ 0) = program.isEmpty := by
    rw [Bool.eq_iff_iff, decide_eq_true_iff, program.isEmpty_iff_size, Nat.le_zero]
  rw [standingAt]
  exact congrArg (fun halted => { initial program with halted }) hhalted

theorem State.initial_relocated {program : Program} {k : Nat} (hk : k + program.size ≤ 2 ^ 52) :
    (initial program).ExactlyRelocated (List.replicate k .nop)
      ((initial (program.prepend (List.replicate k .nop))).standingAt k) := by
  have hlength : (List.replicate k Cell.nop).length = k := List.length_replicate
  refine { rom := rfl, pc := ?_, halted := ?_, stack := rfl, memory := rfl, pc_le := Nat.zero_le _, size_le := ?_ }
  · rw [hlength]
    exact (Nat.zero_add k).symm
  · change decide ((program.prepend (List.replicate k Cell.nop)).size ≤ k) = program.isEmpty
    rw [Bool.eq_iff_iff, decide_eq_true_iff, program.isEmpty_iff_size, Program.size_prepend, hlength]
    omega
  · rwa [hlength]

namespace Machine

variable {σ : Type} [Sink σ]

theorem step_nop {m : Machine σ} {s : State} {i : Nat} (hs : m.state = s.standingAt i)
    (hc : s.rom.cell? i = some .nop) :
    ∃ running next, step m = .ok running next ∧ next.state = s.standingAt (i + 1) ∧ next.output = m.output := by
  have hr : m.state.halted = false := by
    rw [hs]
    exact decide_eq_false (Nat.not_le.mpr (Program.lt_size_of_cell? hc))
  have hop : m.state.nextOpcode? = some .nop := by
    rw [hs]
    exact State.nextOpcode?_of_number hc
  refine ⟨_, _, step_of_cycle_ok hr (cycle_of_execute_ok hop rfl), ?_, completed_output ..⟩
  change m.state.advance.settle = _
  rw [State.settle, State.advance, hr, hs]
  rfl

theorem after_nops {m : Machine σ} {s : State} {k : Nat} (hs : m.state = s.standingAt 0)
    (hc : ∀ j < k, s.rom.cell? j = some .nop) :
    (m.after k).state = s.standingAt k ∧ (m.after k).output = m.output ∧ ∀ j < k, (m.after j).Succeeds := by
  induction k with
  | zero => exact ⟨hs, rfl, nofun⟩
  | succ k ih =>
    obtain ⟨hstate, hout, hsucc⟩ := ih fun j hj => hc j (Nat.lt_succ_of_lt hj)
    obtain ⟨running, next, hstep, hnext, hout'⟩ := step_nop hstate (hc k (Nat.lt_succ_self k))
    have hafter : m.after (k + 1) = next := afterStep_of_ok hstep
    rw [hafter]
    refine ⟨hnext, hout'.trans hout, ?_⟩
    intro j hj
    rcases Nat.lt_succ_iff_lt_or_eq.mp hj with hlt | rfl
    · exact hsucc j hlt
    · exact ⟨running, next, hstep⟩

theorem runsAfter_nops {program : Program} {k : Nat} (hk : k + program.size ≤ 2 ^ 52) (output : σ)
    (journal journal' : Journal) :
    RunsAfter (List.replicate k .nop) (start program output journal)
      (start (program.prepend (List.replicate k .nop)) output journal') := by
  have hlength : (List.replicate k Cell.nop).length = k := List.length_replicate
  have hcell : ∀ j < k, (program.prepend (List.replicate k .nop)).cell? j = some .nop := by
    intro j hj
    rw [Program.cell?_prepend_of_lt program (hlength.symm ▸ hj), List.getElem?_replicate_of_lt hj]
  obtain ⟨hstate, hout, hsucc⟩ := after_nops (m := start (program.prepend (List.replicate k .nop)) output journal')
    (State.initial_standingAt _).symm hcell
  refine runsAfter_of_reaches ?_ ?_ ?_
  · rw [hlength, hstate]
    exact State.initial_relocated hk
  · rw [hlength, hout]
    rfl
  · rwa [hlength]

theorem position_independence (program : Program) (k : Nat) (hk : k + program.size ≤ 2 ^ 52) :
    (∀ (pre : List Cell) (m m' : Machine σ), pre.length = k → m.state.rom = program → m.state.Relocated pre m'.state →
        (m.Succeeds → StepsAlike (State.Relocated pre) m m') ∧
          ∀ fault next, step m = .error fault next → (∀ target size, fault ≠ .illegalJumpTarget target size) →
            ∃ fault' next', fault.moved k = some fault' ∧ step m' = .error fault' next' ∧
              next.state.Relocated pre next'.state) ∧
      ∀ (output : σ) (journal journal' : Journal), RunsAfter (List.replicate k .nop) (start program output journal)
        (start (program.prepend (List.replicate k .nop)) output journal') := by
  constructor
  · rintro pre m m' rfl rfl h
    have hi := inStep_relocated h hk
    refine ⟨hi.stepsAlike, ?_⟩
    intro fault next hstep hf
    obtain ⟨fault', hmoved⟩ := Fault.exists_moved hf pre.length
    obtain ⟨next', hstep', hnext⟩ := hi.fault hstep hmoved
    exact ⟨fault', next', hmoved, hstep', hnext⟩
  · exact runsAfter_nops hk

def jumpThenLabel : Program := (Program.empty.emit .jmp).push (.label "end")

def jumpingBy (offset : Number) (rom : Program) (pc : Nat) : Machine Collector where
  state := { rom, pc, halted := false, stack := [offset], memory := .empty }
  output := {}
  journal := .silent

theorem position_independence_jumpThenLabel :
    StepsAlike (State.Relocated [.label "start"]) (jumpingBy (.ofBits 1) jumpThenLabel 0)
        (jumpingBy (.ofBits 1) (jumpThenLabel.prepend [.label "start"]) 1) ∧
      (∃ next', step (jumpingBy (.ofBits 1) (jumpThenLabel.prepend [.label "start"]) 2) =
        .error (.illegalValue 2 "end") next') ∧
      RunsAfter [.nop] (start jumpThenLabel ({} : Collector) .silent)
        (start (jumpThenLabel.prepend [.nop]) {} .silent) := by
  obtain ⟨hsteps, hruns⟩ := position_independence (σ := Collector) jumpThenLabel 1 (by decide)
  let m := jumpingBy (.ofBits 1) jumpThenLabel
  let m' := jumpingBy (.ofBits 1) (jumpThenLabel.prepend [.label "start"])
  have hop : (m 0).state.nextOpcode? = some .jmp := State.nextOpcode?_of_number rfl
  -- The offset is the least number above zero, so the sums are rounded.
  have htarget : (Number.ofNat 1 + Number.ofBits 1).toIndex? = some 1 := by decide +kernel
  have hen : (m 0).state.Enabled .jmp := by
    refine ⟨by decide, nofun, nofun, ?_⟩
    rintro offset ⟨below, operands, hb, _⟩
    change [] ++ [Number.ofBits 1] = below ++ operands ++ [offset] at hb
    cases (List.append_inj' hb rfl).2
    obtain ⟨hw, hi⟩ := (Number.toIndex?_eq_some_iff _ _).mp htarget
    exact ⟨1, hw, by decide, hi⟩
  have hsucc : (m 0).Succeeds := by
    rcases step_of_nextOpcode rfl hop with ⟨effect, s, _, hs⟩ | ⟨fault, s, he, _⟩
    · exact ⟨_, _, hs⟩
    · exact absurd hen (State.not_enabled_of_error he)
  have hlabel : (m 1).state.rom.cell? 1 = some (.label "end") := rfl
  have hfault : step (m 1) = .error (.illegalValue 1 "end") _ := step_of_label rfl hlabel
  obtain ⟨hfirst, _⟩ := hsteps [.label "start"] (m 0) (m' 1) rfl rfl ⟨rfl, rfl, rfl, rfl, rfl⟩
  obtain ⟨_, hsecond⟩ := hsteps [.label "start"] (m 1) (m' 2) rfl rfl ⟨rfl, rfl, rfl, rfl, rfl⟩
  obtain ⟨fault', next', hmoved, hstep, _⟩ := hsecond _ _ hfault nofun
  cases hmoved
  exact ⟨hfirst hsucc, ⟨next', hstep⟩, hruns {} .silent .silent⟩

end Machine

end StackMachine
