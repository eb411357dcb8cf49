import StackMachine.Proofs.Lockstep

namespace StackMachine

namespace State

structure Deepened (below : List Number) (s t : State) : Prop where
  rom : t.rom = s.rom
  pc : t.pc = s.pc
  halted : t.halted = s.halted
  memory : t.memory = s.memory
  stack : t.stack.bottomFirst = below ++ s.stack.bottomFirst

theorem deepened_iff (below : List Number) (s t : State) :
    s.Deepened below t ↔ t = { s with stack := s.stack ++ below.reverse } := by
  constructor
  · intro h
    have hstack : t.stack = s.stack ++ below.reverse := by
      have hs := congrArg List.reverse h.stack
      simpa [Stack.bottomFirst] using hs
    cases t
    simp only [State.mk.injEq]
    exact ⟨h.rom, h.pc, h.halted, hstack, h.memory⟩
  · rintro rfl
    exact ⟨rfl, rfl, rfl, rfl, by simp [Stack.bottomFirst]⟩

theorem deepened_self (below : List Number) (s : State) (stack : Stack) :
    Deepened below { s with stack } { s with stack := stack ++ below.reverse } :=
  (deepened_iff below _ _).mpr rfl

end State

def Fault.isUnderflow : Fault → Bool
  | stackUnderflow _ _ => true
  | _ => false

def Fault.unlessUnderflow (fault : Fault) : Option Fault := if fault.isUnderflow then none else some fault

namespace Action

theorem pop_deepened (below : List Number) : Alike Eq (State.Deepened below) Fault.unlessUnderflow pop pop := by
  intro s t h
  obtain rfl := (State.deepened_iff below s t).mp h
  cases hs : s.stack with
  | nil =>
    rw [pop_nil hs]
    exact .exempt rfl _
  | cons value rest =>
    rw [pop_cons hs, pop_cons (s := { s with stack := value :: rest ++ below.reverse }) rfl]
    exact .ok rfl (State.deepened_self below s rest)

theorem popMany_deepened (below : List Number) (count : Nat) :
    Alike Eq (State.Deepened below) Fault.unlessUnderflow (popMany count) (popMany count) := by
  intro s t h
  obtain rfl := (State.deepened_iff below s t).mp h
  by_cases hl : s.stack.length < count
  · rw [popMany_underflow hl]
    exact .exempt rfl _
  · obtain ⟨operands, rest, hs, ho⟩ := Stack.exists_operands (Nat.not_lt.mp hl)
    have ht : s.stack ++ below.reverse = operands.reverse ++ (rest ++ below.reverse) := by
      rw [hs, List.append_assoc]
    rw [popMany_operands hs ho, popMany_operands (s := { s with stack := s.stack ++ below.reverse }) ht ho]
    exact .ok rfl (State.deepened_self below s rest)

theorem jump_deepened (below : List Number) (offset : Number) :
    Alike Eq (State.Deepened below) Fault.unlessUnderflow (jump offset) (jump offset) := by
  apply jump_alike
  · exact fun h => h.pc
  · exact fun h => congrArg Program.size h.rom
  · exact fun h _ => ⟨h.rom, rfl, h.halted, h.memory, h.stack⟩
  · exact fun _ _ => rfl

end Action

theorem simulation_deepened (below : List Number) : Simulation (State.Deepened below) Fault.unlessUnderflow where
  cell h := by rw [h.rom, h.pc]
  halted h := h.halted
  pastEnd h := by rw [State.pastEnd, h.rom, h.pc, State.pastEnd]
  memory h := h.memory
  advance h _ _ := ⟨h.rom, congrArg (· + 1) h.pc, h.halted, h.memory, h.stack⟩
  setHalted h _ := ⟨h.rom, h.pc, rfl, h.memory, h.stack⟩
  setMemory h _ := ⟨h.rom, h.pc, h.halted, rfl, h.stack⟩
  pushAll h values := by
    refine ⟨h.rom, h.pc, h.halted, h.memory, ?_⟩
    rw [Stack.bottomFirst_pushAll, Stack.bottomFirst_pushAll, h.stack, List.append_assoc]
  pop := Action.pop_deepened below
  popMany := Action.popMany_deepened below
  jump := Action.jump_deepened below
  overrun h := by rw [h.pc, h.rom]; rfl
  label h _ := by rw [h.pc]; rfl
  opcode _ := rfl
  address _ := rfl

namespace Machine

variable {σ : Type} [Sink σ]

theorem stack_frame (below : List Number) (m m' : Machine σ) (h : m.state.Deepened below m'.state) (n : Nat)
    (hn : ∀ k < n, (m.after k).Succeeds) :
    (∀ k < n, StepsAlike (State.Deepened below) (m.after k) (m'.after k)) ∧
      ∀ fault next, step (m.after n) = .error fault next → (∀ needed depth, fault ≠ .stackUnderflow needed depth) →
        ∃ next', step (m'.after n) = .error fault next' ∧ next.state.Deepened below next'.state := by
  have hsim := simulation_deepened below
  constructor
  · intro k hk
    exact stepsAlike_after hsim h hn hk
  · intro fault next hstep hf
    have hkept : fault.unlessUnderflow = some fault := by
      cases fault with
      | stackUnderflow needed depth => exact absurd rfl (hf needed depth)
      | _ => rfl
    exact (inStep hsim (states_after hsim h hn)).fault hstep hkept

def dupThenLabel (stack : Stack) : Machine Collector where
  state :=
    { rom := (Program.empty.emit .dup).push (.label "end")
      pc := 0
      halted := false
      stack
      memory := .empty }
  output := {}
  journal := .silent

theorem stack_frame_dupThenLabel :
    StepsAlike (State.Deepened [Number.nan]) (dupThenLabel [Number.zero]) (dupThenLabel [Number.zero, Number.nan]) ∧
      ∃ next', step ((dupThenLabel [Number.zero, Number.nan]).after 1) = .error (.illegalValue 1 "end") next' ∧
        next'.state.stack.bottomFirst = [Number.nan, Number.zero, Number.zero] := by
  let m := dupThenLabel [Number.zero]
  have hop : m.state.nextOpcode? = some .dup := State.nextOpcode?_of_number rfl
  let next := m.completed .dup .quiet { m.state.advance with stack := [Number.zero, Number.zero] }
  have hstep : step m = .ok true next := step_of_cycle_ok rfl (cycle_of_execute_ok hop rfl)
  have hlabel : next.state.rom.cell? next.state.pc = some (.label "end") := rfl
  have hfault : step next = .error (.illegalValue 1 "end") { next with state := next.state.advance } :=
    step_of_label rfl hlabel
  have hn : ∀ k < 1, (m.after k).Succeeds := by
    intro k hk
    obtain rfl : k = 0 := by omega
    exact ⟨true, next, hstep⟩
  obtain ⟨hsteps, hlast⟩ := stack_frame [Number.nan] m (dupThenLabel [Number.zero, Number.nan])
    ⟨rfl, rfl, rfl, rfl, rfl⟩ 1 hn
  obtain ⟨next', hs, hnext⟩ := hlast _ _ ((congrArg step (afterStep_of_ok hstep)).trans hfault) nofun
  exact ⟨hsteps 0 Nat.one_pos, next', hs, hnext.stack⟩

end Machine

end StackMachine
