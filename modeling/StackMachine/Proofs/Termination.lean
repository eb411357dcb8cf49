import StackMachine.Proofs.Jumps
import StackMachine.Proofs.StraightLine

namespace StackMachine

theorem Number.RoundsToWhole.le_of_le {units n k : Nat} (h : RoundsToWhole units n) (hk : k ≤ 2 ^ 52)
    (hle : k * unitsPerOne ≤ units) : k ≤ n := by
  by_contra hlt
  obtain ⟨_, hhi⟩ := h.bounds
  have hplace := h.place_le (by omega)
  have hmul := Nat.mul_le_mul_right unitsPerOne (show n + 1 ≤ k by omega)
  have hpos := unitsPerOne_pos
  rw [Nat.succ_mul] at hmul
  omega

theorem Program.HasIndex.le {p : Program} {pc i : Nat} {offset : Number} (hpc : pc ≤ 2 ^ 52) (hsize : p.size ≤ 2 ^ 52)
    (h : p.HasIndex (Number.ofNat pc + offset) i) (hoffset : ¬ offset.less Number.zero) : pc ≤ i := by
  have hf := h.isFinite_offset
  have hunits : 0 ≤ offset.units := by
    rw [Number.less_iff_units hf rfl] at hoffset
    exact Int.not_lt.mp hoffset
  obtain ⟨_, _, hround⟩ := (hasIndex_sum_iff hpc hsize hf).mp h
  apply hround.le_of_le hpc
  omega

def State.TakesBackward (s : State) : Prop :=
  ∃ op offset, s.nextOpcode? = some op ∧ s.Takes op offset ∧ offset.less Number.zero

theorem State.not_takesBackward {s : State} (h : ∀ x ∈ s.stack, ¬ x.less Number.zero) : ¬ s.TakesBackward := by
  rintro ⟨op, offset, _, ⟨below, operands, hb, _⟩, hneg⟩
  refine h offset ?_ hneg
  rw [← List.mem_reverse, ← Stack.bottomFirst, hb]
  simp

def Program.BranchFree (p : Program) : Prop :=
  ∀ entry ∈ p.disassembly, ∀ op literals, entry.content = .instruction op literals → op.isBranch = false

theorem Disassembly.exists_instruction {p : Program} {address : Nat} {op : Opcode}
    (h : (p.cell? address).bind Cell.opcode? = some op) :
    ∃ literals rest, entriesFrom p address = ⟨address, .instruction op literals⟩ :: rest := by
  by_cases hop : op = .push
  · subst hop
    exact ⟨_, _, entriesFrom_of_push h⟩
  · exact ⟨_, _, entriesFrom_of_opcode h hop⟩

namespace Machine

variable {σ : Type} [Sink σ]

theorem Completes.pc_lt {m next : Machine σ} {op : Opcode} {change : Change m.state} (h : m.Completes op change next)
    (hop : m.state.nextOpcode? = some op) (hsize : m.state.rom.size ≤ 2 ^ 52) (hf : ¬ m.state.TakesBackward) :
    m.state.pc < next.state.pc := by
  rw [h.pc]
  rcases h.row.pc_eq with hpc | ⟨operands, offset, hc, hj⟩
  · omega
  · have hlt := State.nextOpcode?_lt_size hop
    refine (h.row.hasIndex_of_jumps hc hj).le (by omega) hsize ?_
    intro hneg
    obtain ⟨below, hb, _⟩ := h.stack
    rw [hc, ← List.append_assoc] at hb
    exact hf ⟨op, offset, hop, ⟨below, operands, hb, hj⟩, hneg⟩

theorem step_pc_lt {m next : Machine σ} {running : Bool} (hsize : m.state.rom.size ≤ 2 ^ 52)
    (hr : m.state.halted = false) (h : step m = .ok running next) (hf : ¬ m.state.TakesBackward) :
    m.state.pc < next.state.pc := by
  rcases step_ok_cases h with ⟨hh, _⟩ | ⟨_, op, change, hop, hc⟩
  · simp [hr] at hh
  · exact hc.pc_lt hop hsize hf

theorem step_ok_cycles {m next : Machine σ} {running : Bool} (h : step m = .ok running next) :
    next.cycles ≤ m.cycles + 1 := by
  rcases step_ok_cases h with ⟨_, _, rfl⟩ | ⟨_, _, _, _, hc⟩
  · omega
  · exact hc.cycles.le

def StopsWithin (bound : Nat) (m : Machine σ) : Prop :=
  ∃ c, m.Computes c ∧ (c.fault?.isSome ∨ c.state.halted = true) ∧ c.cycles ≤ m.cycles + bound

theorem stopsWithin_of_fault {m next : Machine σ} {fault : Fault} (h : step m = .error fault next) (bound : Nat) :
    m.StopsWithin bound := by
  obtain ⟨_, hcycles, _⟩ := faulted_of_step (not_halted_of_step_error h) h
  refine ⟨_, computes_of_step (congrArg stepConclusion? h), .inl rfl, ?_⟩
  change next.cycles ≤ _
  omega

theorem stopsWithin_of_stopped {m next : Machine σ} (h : step m = .ok false next) {bound : Nat}
    (hb : next.cycles ≤ m.cycles + bound) : m.StopsWithin bound :=
  ⟨_, computes_of_step (congrArg stepConclusion? h), .inr (step_ok_halted h), hb⟩

theorem stopsWithin_of_running {m next : Machine σ} (h : step m = .ok true next) {bound : Nat}
    (hn : next.StopsWithin bound) : m.StopsWithin (bound + 1) := by
  obtain ⟨c, hc, hstop, hcycles⟩ := hn
  have hle := step_ok_cycles h
  exact ⟨c, ((Steps.succ h (.zero next)).computes_iff c).mp hc, hstop, by omega⟩

theorem stopsWithin_of_steps {m : Machine σ} {bound : Nat}
    (h : ∀ k last, Steps k m last → last.state.halted = false → k < bound) : m.StopsWithin bound := by
  induction bound generalizing m with
  | zero =>
    cases hr : m.state.halted with
    | false => exact absurd (h 0 m (.zero m) hr) (Nat.lt_irrefl 0)
    | true => exact stopsWithin_of_stopped (step_of_halted hr) (Nat.le_refl _)
  | succ bound ih =>
    cases hs : step m with
    | error fault next => exact stopsWithin_of_fault hs _
    | ok running next =>
      cases running with
      | false =>
        have hle := step_ok_cycles hs
        exact stopsWithin_of_stopped hs (by omega)
      | true =>
        apply stopsWithin_of_running hs
        apply ih
        intro k last hk hr
        have hlt := h (k + 1) last (.succ hs hk) hr
        omega

theorem Steps.inside {k : Nat} {m last : Machine σ} (h : Steps k m last) (hm : m.state.Inside) : last.state.Inside := by
  induction h with
  | zero m => exact hm
  | succ h _ ih => exact ih (step_ok_inside h)

def GoesForward (m : Machine σ) : Prop :=
  ∀ k last running next, Steps k m last → step last = .ok running next → ¬ last.state.TakesBackward

theorem GoesForward.next {m next : Machine σ} (h : m.GoesForward) (hs : step m = .ok true next) : next.GoesForward := by
  intro k last running final hk
  exact h (k + 1) last running final (.succ hs hk)

theorem GoesForward.of_step {m next : Machine σ} {running : Bool} (hs : step m = .ok running next)
    (hf : ¬ m.state.TakesBackward) (hn : running = true → next.GoesForward) : m.GoesForward := by
  intro k last again final hk hlast
  cases hk with
  | zero => exact hf
  | succ h hk =>
    cases hs.symm.trans h
    exact hn rfl _ _ _ _ hk hlast

theorem Steps.pc_add_le {k : Nat} {m last : Machine σ} (h : Steps k m last) (hsize : m.state.rom.size ≤ 2 ^ 52)
    (hf : m.GoesForward) : last.state.rom = m.state.rom ∧ m.state.pc + k ≤ last.state.pc := by
  induction h with
  | zero m => exact ⟨rfl, Nat.le_refl _⟩
  | @succ k m next last hs _ ih =>
    have hr := not_halted_of_step_running hs
    have hrom := step_ok_rom hs
    have hlt := step_pc_lt hsize hr hs (hf 0 m true next (.zero m) hs)
    obtain ⟨hrom', hle⟩ := ih (hrom ▸ hsize) (hf.next hs)
    exact ⟨hrom'.trans hrom, by omega⟩

theorem stopsWithin_of_goesForward {program : Program} (hsize : program.size ≤ 2 ^ 52) {output : σ} {journal : Journal}
    (hf : (start program output journal).GoesForward) :
    (start program output journal).StopsWithin program.size := by
  apply stopsWithin_of_steps
  intro k last hk hr
  obtain ⟨hrom, hle⟩ := hk.pc_add_le hsize hf
  have hlt := hk.inside (State.initial_inside program) hr
  have hstart : (start program output journal).state.rom = program := rfl
  rw [hrom, hstart] at hlt
  omega

theorem Follows.stepsStraight {program : Program} {k : Nat} {m next : Machine σ} (h : Follows program k m)
    (hb : program.BranchFree) (hs : Machine.step m = .ok true next) : m.StepsStraight next := by
  rcases step_ok_cases hs with ⟨_, hrunning, _⟩ | ⟨_, op, change, hop, hc⟩
  · cases hrunning
  · obtain ⟨literals, rest, he⟩ := Disassembly.exists_instruction hop
    rw [h.rom] at he
    have hbranch := hb _ (List.mem_of_getElem? (h.entry he)) op literals rfl
    exact ⟨not_halted_of_step_running hs, ⟨true, hs⟩, State.not_takesBranch hop hbranch⟩

theorem Steps.follows {program : Program} {j k : Nat} {m last : Machine σ} (h : Steps j m last)
    (hb : program.BranchFree) (hm : Follows program k m) : Follows program (k + j) last := by
  induction h generalizing k with
  | zero m => exact hm
  | @succ j m next last hs _ ih =>
    have hnext := ih (hm.step (hm.stepsStraight hb hs))
    rwa [Nat.add_right_comm] at hnext

theorem stopsWithin_of_branchFree {program : Program} (hb : program.BranchFree) (output : σ) (journal : Journal) :
    (start program output journal).StopsWithin program.disassembly.length := by
  apply stopsWithin_of_steps
  intro k last hk hr
  have hf : Follows program (0 + k) last := hk.follows hb ⟨rfl, State.initial_inside program, rfl⟩
  have hlt := hf.inside hr
  rw [hf.rom] at hlt
  cases hc : program.cell? last.state.pc with
  | none => exact absurd hlt (Nat.not_lt.mpr ((program.cell?_eq_none_iff _).mp hc))
  | some cell =>
    have hentry := hf.entry (Disassembly.entriesFrom_of_cell? hc)
    obtain ⟨hlen, _⟩ := List.getElem?_eq_some_iff.mp hentry
    omega

theorem forward_runs_stop (program : Program) (hsize : program.size ≤ 2 ^ 52) :
    (∀ (m next : Machine σ) (running : Bool), m.state.rom = program → m.state.halted = false →
        step m = .ok running next → ¬ m.state.TakesBackward → m.state.pc < next.state.pc) ∧
      (∀ (output : σ) (journal : Journal), (start program output journal).GoesForward →
        ∃ c, (start program output journal).Computes c ∧ (c.fault?.isSome ∨ c.state.halted = true) ∧
          c.cycles ≤ program.size) ∧
      (program.BranchFree → ∀ (output : σ) (journal : Journal), ∃ c, (start program output journal).Computes c ∧
        (c.fault?.isSome ∨ c.state.halted = true) ∧ c.cycles ≤ program.disassembly.length) := by
  refine ⟨?_, ?_, ?_⟩
  · rintro m next running rfl hr hs hf
    exact step_pc_lt hsize hr hs hf
  · intro output journal hf
    obtain ⟨c, hc, hstop, hcycles⟩ := stopsWithin_of_goesForward hsize hf
    exact ⟨c, hc, hstop, hcycles.trans_eq (Nat.zero_add _)⟩
  · intro hb output journal
    obtain ⟨c, hc, hstop, hcycles⟩ := stopsWithin_of_branchFree hb output journal
    exact ⟨c, hc, hstop, hcycles.trans_eq (Nat.zero_add _)⟩

def jumpAhead : Program :=
  (((Program.empty.emitPush (Number.ofNat 1)).emit .jmp).push (.label "skipped")).emit .nop

theorem goesForward_jumpAhead : (start jumpAhead ({} : Collector) .silent).GoesForward := by
  let m := start jumpAhead ({} : Collector) .silent
  have hpush : m.state.nextOpcode? = some .push := State.nextOpcode?_of_number rfl
  have hfirst := step_of_ends rfl hpush (.push rfl)
  let next := m.completed .push .quiet { m.state with pc := 2, stack := [Number.ofNat 1] }
  have hjmp : next.state.nextOpcode? = some .jmp := State.nextOpcode?_of_number rfl
  have htarget : (Number.ofNat 3 + Number.ofNat 1).toIndex? = some 4 := by decide +kernel
  obtain ⟨hw, hi⟩ := (Number.toIndex?_eq_some_iff _ _).mp htarget
  have hindex : next.state.rom.HasIndex (Number.ofNat 3 + Number.ofNat 1) 4 := ⟨hw, by decide, hi⟩
  have hstack : next.state.advance.stack = Number.ofNat 1 :: (([] : List Number).reverse ++ []) := rfl
  have hsecond := step_of_ends rfl hjmp (.branchTaken hstack rfl rfl hindex)
  let last := next.completed .jmp (.jumped 3 4) { next.state with pc := 4, stack := [] }
  have hnop : last.state.nextOpcode? = some .nop := State.nextOpcode?_of_number rfl
  have hthird := step_of_ends rfl hnop .nop
  refine .of_step hfirst (State.not_takesBackward nofun) fun _ => ?_
  refine .of_step hsecond (State.not_takesBackward ?_) fun _ => ?_
  · intro x hx
    rw [List.mem_singleton.mp hx]
    decide +kernel
  · exact .of_step hthird (State.not_takesBackward nofun) nofun

theorem forward_runs_stop_jumpAhead : jumpAhead.size ≤ 2 ^ 52 ∧
    (∃ c, (start jumpAhead ({} : Collector) .silent).Computes c ∧ c.cycles ≤ 5) ∧ pushThenLabel.BranchFree ∧
    ∃ c, (start pushThenLabel ({} : Collector) .silent).Computes c ∧ c.cycles ≤ pushThenLabel.disassembly.length := by
  have hsize : jumpAhead.size ≤ 2 ^ 52 := by decide
  have hsmall : pushThenLabel.size ≤ 2 ^ 52 := by decide
  have hfree : pushThenLabel.BranchFree := by
    have hpush : (pushThenLabel.cell? 0).bind Cell.opcode? = some .push :=
      State.nextOpcode?_of_number (s := .initial pushThenLabel) rfl
    have hlabel : pushThenLabel.cell? 2 = some (.label "end") := rfl
    intro entry he op literals hop
    rw [Disassembly.disassembly_eq, Disassembly.entriesFrom_of_push hpush,
      Disassembly.entriesFrom_of_data hlabel rfl, Disassembly.entriesFrom_of_size_le (by decide)] at he
    simp only [List.mem_cons, List.not_mem_nil, or_false] at he
    rcases he with rfl | rfl
    · cases hop
      rfl
    · cases hop
  obtain ⟨_, hforward, _⟩ := forward_runs_stop (σ := Collector) jumpAhead hsize
  obtain ⟨_, _, hstraight⟩ := forward_runs_stop (σ := Collector) pushThenLabel hsmall
  obtain ⟨c, hc, _, hcycles⟩ := hforward {} .silent goesForward_jumpAhead
  obtain ⟨d, hd, _, hd'⟩ := hstraight hfree {} .silent
  exact ⟨hsize, ⟨c, hc, hcycles⟩, hfree, d, hd, hd'⟩

end Machine

end StackMachine
