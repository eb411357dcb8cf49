import StackMachine.Proofs.InstructionSet

namespace StackMachine

theorem Stack.replaced {stack rest : Stack} (consumed results : List Number) (h : stack = consumed.reverse ++ rest) :
    ∃ below, stack.bottomFirst = below ++ consumed ∧ bottomFirst (results.reverse ++ rest) = below ++ results :=
  ⟨rest.bottomFirst, bottomFirst_of_append consumed h, bottomFirst_of_append results rfl⟩

theorem Stack.replaced_branch {stack rest : Stack} {operands : List Number} {offset : Number}
    (h : stack = offset :: (operands.reverse ++ rest)) :
    ∃ below, stack.bottomFirst = below ++ (operands ++ [offset]) ∧ rest.bottomFirst = below ++ [] :=
  ⟨rest.bottomFirst, bottomFirst_of_branch h, (List.append_nil _).symm⟩

theorem Row.consumed_length {s : State} {op : Opcode} {change : Change s} (h : Row s op change) :
    change.consumed.length = op.operandCount := by
  cases h with
  | jump h => rw [List.length_append, ← h.length, List.length_singleton]
  | fallThrough _ hl => rw [List.length_append, ← hl, List.length_singleton]
  | _ => rfl

theorem Row.hasIndex_of_jumps {s : State} {op : Opcode} {change : Change s} (h : Row s op change)
    {operands : List Number} {offset : Number} (hc : change.consumed = operands ++ [offset]) (hj : op.Jumps operands) :
    s.rom.HasIndex (Number.ofNat (s.pc + 1) + offset) change.pc := by
  cases h with
  | jump _ hi =>
    cases (List.append_inj' hc rfl).2
    exact hi
  | fallThrough _ _ h =>
    cases (List.append_inj' hc rfl).1
    exact absurd hj h
  | _ => cases hj

namespace State

def Takes (s : State) (op : Opcode) (offset : Number) : Prop :=
  ∃ below operands, s.stack.bottomFirst = below ++ operands ++ [offset] ∧ op.Jumps operands

structure Enabled (s : State) (op : Opcode) : Prop where
  depth : op.operandCount ≤ s.stack.length
  literal : op = .push → ∃ x, s.rom.cell? (s.pc + 1) = some (.number x)
  address : op = .load ∨ op = .store → ∀ below a, s.stack.bottomFirst = below ++ [a] → ¬ a.less Number.zero
  target : ∀ offset, s.Takes op offset → ∃ i, s.rom.HasIndex (Number.ofNat (s.pc + 1) + offset) i

structure Applied (s : State) (op : Opcode) (change : Change s) (effect : Effect) (t : State) : Prop where
  row : Row s op change
  rom : t.rom = s.rom
  pc : t.pc = change.pc
  halted : t.halted = true ↔ s.halted = true ∨ op = .halt
  stack : ∃ below, s.stack.bottomFirst = below ++ change.consumed ∧
    t.stack.bottomFirst = below ++ change.results
  memory : t.memory = change.memory
  values : effect.values = change.emitted

theorem exists_applied {s t : State} {op : Opcode} {effect : Effect}
    (he : op.instruction.Ends s.advance (.ok effect t)) : ∃ change, s.Applied op change effect t := by
  generalize hi : op.instruction = i at he
  have hop := Opcode.of_instruction hi
  cases he with
  | nop =>
    obtain rfl : op = .nop := hop
    exact ⟨_, .nop, rfl, rfl, (or_iff_left nofun).symm, Stack.replaced [] [] rfl, rfl, rfl⟩
  | @push x h =>
    obtain rfl : op = .push := hop
    exact ⟨_, .push h, rfl, rfl, (or_iff_left nofun).symm, Stack.replaced [] [x] rfl, rfl, rfl⟩
  | @load a rest h ha =>
    obtain rfl : op = .load := hop
    have hr : Row s .load _ := .load (Memory.load_of_not_less ha s.memory)
    exact ⟨_, hr, rfl, rfl, (or_iff_left nofun).symm, Stack.replaced [a] [_] h, rfl, rfl⟩
  | @store a value rest memory h ha hm =>
    obtain rfl : op = .store := hop
    exact ⟨_, .store hm, rfl, rfl, (or_iff_left nofun).symm, Stack.replaced [value, a] [] h, rfl, rfl⟩
  | halt =>
    obtain rfl : op = .halt := hop
    exact ⟨_, .halt, rfl, rfl, iff_of_true rfl (.inr rfl), Stack.replaced [] [] rfl, rfl, rfl⟩
  | @out value rest h =>
    obtain rfl : op = .out := hop
    exact ⟨_, .out value, rfl, rfl, (or_iff_left nofun).symm, Stack.replaced [value] [] h, rfl, rfl⟩
  | @operate operation operands rest h hl =>
    obtain ⟨_, _, hn⟩ := Opcode.takes_operands (.inl hop.1)
    have hr := Opcode.row_of_operate s hi hl
    exact ⟨_, hr, rfl, rfl, (or_iff_left hn).symm, Stack.replaced operands _ h, rfl, rfl⟩
  | @branchTaken condition offset operands rest i h hl ht hx =>
    have hj := (Opcode.test_iff_jumps hi hl).mp ht
    obtain ⟨_, _, hn⟩ := Opcode.takes_operands (.inr hop.1)
    exact ⟨_, .jump hj hx, rfl, rfl, (or_iff_left hn).symm, Stack.replaced_branch h, rfl, rfl⟩
  | @branchNotTaken condition offset operands rest h hl ht =>
    have hj : ¬ op.Jumps operands := by
      rw [← Opcode.test_iff_jumps hi hl, ht]
      exact Bool.false_ne_true
    obtain ⟨_, _, hn⟩ := Opcode.takes_operands (.inr hop.1)
    have hr : Row s op { consumed := operands ++ [offset] } := .fallThrough hop.1 (hl ▸ hop.2.symm) hj
    exact ⟨_, hr, rfl, rfl, (or_iff_left hn).symm, Stack.replaced_branch h, rfl, rfl⟩

theorem Enabled.of_row {s : State} {op : Opcode} {change : Change s} {below : List Number} (hr : Row s op change)
    (hs : s.stack.bottomFirst = below ++ change.consumed) : s.Enabled op where
  depth := by
    have hl := congrArg List.length hs
    rw [Stack.bottomFirst, List.length_reverse, List.length_append, hr.consumed_length] at hl
    omega
  literal := by
    rintro rfl
    cases hr with
    | push h => exact ⟨_, h⟩
    | jump h => cases h
    | fallThrough hb => cases hb
  address := by
    rintro (rfl | rfl) above b hb ha
    · cases hr with
      | load h =>
        cases (List.append_inj' (hb.symm.trans hs) rfl).2
        rw [Memory.load_of_less ha] at h
        cases h
      | jump h => cases h
      | fallThrough hb => cases hb
    · cases hr with
      | @store a value memory h =>
        have hs' : s.stack.bottomFirst = below ++ [value] ++ [a] := by simpa using hs
        cases (List.append_inj' (hb.symm.trans hs') rfl).2
        have h := h.store
        rw [Memory.store_of_less ha] at h
        cases h
      | jump h => cases h
      | fallThrough hb => cases hb
  target := by
    rintro offset ⟨above, operands, hb, hj⟩
    rw [List.append_assoc] at hb
    have hl : change.consumed.length = (operands ++ [offset]).length := by
      rw [hr.consumed_length, ← hj.length, List.length_append, List.length_singleton]
    exact ⟨change.pc, hr.hasIndex_of_jumps (List.append_inj' (hs.symm.trans hb) hl).2 hj⟩

theorem not_enabled_of_error {s t : State} {op : Opcode} {fault : Fault}
    (he : op.instruction.Ends s.advance (.error fault t)) : ¬ s.Enabled op := by
  intro hen
  have hd : op.operandCount ≤ s.advance.stack.length := hen.depth
  generalize hi : op.instruction = i at he
  have hop := Opcode.of_instruction hi
  cases he with
  | pushLabel h =>
    obtain ⟨x, hx⟩ := hen.literal hop
    cases hx.symm.trans h
  | pushOverrun h =>
    obtain ⟨x, hx⟩ := hen.literal hop
    cases hx.symm.trans h
  | @loadAddress a rest h ha => exact hen.address (.inl hop) _ a (Stack.bottomFirst_of_append [a] h) ha
  | loadEmpty h =>
    obtain rfl : op = .load := hop
    rw [h] at hd
    exact absurd hd (by decide)
  | @storeAddress a value rest h ha => exact hen.address (.inr hop) _ a (Stack.bottomFirst_of_append [a] h) ha
  | storeSingle h =>
    obtain rfl : op = .store := hop
    rw [h, List.length_singleton] at hd
    exact absurd hd (by decide)
  | storeEmpty h =>
    obtain rfl : op = .store := hop
    rw [h] at hd
    exact absurd hd (by decide)
  | outEmpty h =>
    obtain rfl : op = .out := hop
    rw [h] at hd
    exact absurd hd (by decide)
  | operateUnderflow h =>
    rw [hop.2] at hd
    omega
  | branchTarget h hl ht hx =>
    have hb := (Stack.bottomFirst_of_branch h).trans (List.append_assoc ..).symm
    obtain ⟨i, hi⟩ := hen.target _ ⟨_, _, hb, (Opcode.test_iff_jumps hi hl).mp ht⟩
    exact hx i hi
  | branchUnderflow h hl =>
    rw [hop.2, h, List.length_cons] at hd
    omega
  | branchEmpty h =>
    rw [hop.2, h, List.length_nil] at hd
    omega

end State

namespace Machine

variable {σ : Type} [Sink σ]

structure Completes (m : Machine σ) (op : Opcode) (change : Change m.state) (next : Machine σ) : Prop where
  row : Row m.state op change
  rom : next.state.rom = m.state.rom
  pc : next.state.pc = change.pc
  halted : next.state.halted = true ↔ op = .halt ∨ m.state.rom.size ≤ change.pc
  stack : ∃ below, m.state.stack.bottomFirst = below ++ change.consumed ∧
    next.state.stack.bottomFirst = below ++ change.results
  memory : next.state.memory = change.memory
  output : next.output = Sink.accept m.output change.emitted
  cycles : next.cycles = m.cycles + 1

theorem completes_of_applied {m : Machine σ} {op : Opcode} {change : Change m.state} {effect : Effect} {s : State}
    (hr : m.state.halted = false) (h : m.state.Applied op change effect s) :
    m.Completes op change (m.completed op effect s) where
  row := h.row
  rom := h.rom
  pc := h.pc
  halted := by
    change (s.halted || decide (s.rom.size ≤ s.pc)) = true ↔ _
    rw [Bool.or_eq_true, decide_eq_true_eq, h.halted, h.rom, h.pc, hr]
    simp
  stack := h.stack
  memory := h.memory
  output := by rw [completed_output, h.values]
  cycles := rfl

theorem step_follows_instruction_set (m : Machine σ) (op : Opcode) (hr : m.state.halted = false)
    (hop : m.state.nextOpcode? = some op) :
    ((∃ running next, step m = .ok running next) ↔ m.state.Enabled op) ∧
      ∀ running next, step m = .ok running next →
        running = !next.state.halted ∧ ∃ change, m.Completes op change next := by
  rcases step_of_nextOpcode hr hop with ⟨effect, s, he, hs⟩ | ⟨fault, s, he, hs⟩
  · obtain ⟨change, ha⟩ := State.exists_applied he
    obtain ⟨below, hb, _⟩ := ha.stack
    refine ⟨iff_of_true ⟨_, _, hs⟩ (.of_row ha.row hb), ?_⟩
    intro running next h
    cases hs.symm.trans h
    exact ⟨rfl, change, completes_of_applied hr ha⟩
  · have hn : ∀ running next, step m ≠ .ok running next := by
      intro running next h
      cases hs.symm.trans h
    refine ⟨iff_of_false (fun ⟨running, next, h⟩ => hn running next h) (State.not_enabled_of_error he), ?_⟩
    intro running next h
    exact absurd h (hn running next)

def selfJump : Machine Collector where
  state :=
    { rom := Program.empty.emit .jg
      pc := 0
      halted := false
      stack := [Number.ofInt (-1), Number.ofNat 1, Number.ofNat 2]
      memory := .empty }
  output := {}
  journal := .silent

theorem step_follows_instruction_set_selfJump : selfJump.state.nextOpcode? = some .jg ∧
    ∃ running next change, step selfJump = .ok running next ∧ selfJump.Completes .jg change next := by
  have hop : selfJump.state.nextOpcode? = some .jg := State.nextOpcode?_of_number rfl
  have htarget : (Number.ofNat 1 + Number.ofInt (-1)).toIndex? = some 0 := by decide +kernel
  have hen : selfJump.state.Enabled .jg := by
    refine ⟨by decide, nofun, nofun, ?_⟩
    rintro offset ⟨below, operands, hb, _⟩
    change [Number.ofNat 2, Number.ofNat 1] ++ [Number.ofInt (-1)] = below ++ operands ++ [offset] at hb
    cases (List.append_inj' hb rfl).2
    obtain ⟨hw, hi⟩ := (Number.toIndex?_eq_some_iff _ _).mp htarget
    exact ⟨0, hw, by decide, hi⟩
  obtain ⟨hsucceeds, hrow⟩ := step_follows_instruction_set selfJump .jg rfl hop
  obtain ⟨running, next, h⟩ := hsucceeds.mpr hen
  obtain ⟨_, change, hc⟩ := hrow running next h
  exact ⟨hop, running, next, change, h, hc⟩

end Machine

end StackMachine
