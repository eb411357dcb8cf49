import StackMachine.Proofs.Histories
import StackMachine.Proofs.Observation

/-!
Conservation of values. A value on the stack or in the output counts once and a cell of the memory twice, for the value
and the address that a store takes. Only three opcodes make this sum larger, each by one in a cycle, so what a machine
holds is never more than the count of its cycles.
-/

namespace StackMachine

namespace Memory

theorem length_insert (address : Address) (value : Number) (cells : List (Address × Number)) :
    cells.length ≤ (insert address value cells).length ∧ (insert address value cells).length ≤ cells.length + 1 := by
  induction cells with
  | nil => exact ⟨Nat.zero_le _, Nat.le_refl _⟩
  | cons cell rest ih =>
    simp only [insert]
    split
    · exact ⟨Nat.le_succ _, Nat.le_refl _⟩
    · split
      · exact ⟨Nat.le_refl _, Nat.le_succ _⟩
      · exact ⟨Nat.succ_le_succ ih.1, Nat.succ_le_succ ih.2⟩

theorem Stores.size {memory next : Memory} {a value : Number} (h : memory.Stores a value next) :
    memory.size ≤ next.size ∧ next.size ≤ memory.size + 1 := by
  have hs := h.store
  rw [Memory.store] at hs
  split at hs
  · cases hs
    exact length_insert _ value memory.cells
  · cases hs

end Memory

def Opcode.growth : Opcode → Nat
  | push | dup | dupSecond => 1
  | _ => 0

theorem Opcode.growth_le_one (op : Opcode) : op.growth ≤ 1 := by
  cases op <;> decide

theorem Opcode.growth_pos_iff (op : Opcode) : 0 < op.growth ↔ op ∈ [push, dup, dupSecond] := by
  cases op <;> decide

theorem Opcode.growth_of_isBranch {op : Opcode} (h : op.isBranch = true) : op.growth = 0 := by
  revert h
  cases op <;> decide

theorem Opcode.Jumps.isBranch {op : Opcode} {operands : List Number} (h : op.Jumps operands) : op.isBranch = true := by
  cases h <;> rfl

namespace Change

def given {s : State} (change : Change s) : Nat :=
  change.results.length + change.emitted.length + 2 * change.memory.size

def taken {s : State} (change : Change s) : Nat := change.consumed.length + 2 * s.memory.size

end Change

theorem Row.given_le {s : State} {op : Opcode} {change : Change s} (h : Row s op change) :
    change.given ≤ change.taken + op.growth := by
  cases h with
  | store h =>
    have := h.size.2
    simp only [Change.given, Change.taken, Opcode.growth, List.length_cons, List.length_nil]
    omega
  | _ =>
    simp only [Change.given, Change.taken, List.length_cons, List.length_nil, Opcode.growth]
    omega

theorem Row.given_of_growth {s : State} {op : Opcode} {change : Change s} (h : Row s op change) (hg : 0 < op.growth) :
    change.given = change.taken + op.growth := by
  cases h with
  | jump h => rw [Opcode.growth_of_isBranch h.isBranch] at hg; cases hg
  | fallThrough hb => rw [Opcode.growth_of_isBranch hb] at hg; cases hg
  | push | dup | dupSecond =>
    simp only [Change.given, Change.taken, List.length_cons, List.length_nil, Opcode.growth]
    omega
  | _ => cases hg

namespace Machine

/-- A value on the stack or in the output counts once, a cell of the memory twice. -/
def holdings (m : Machine Collector) : Nat :=
  m.state.stack.length + m.output.values.length + 2 * m.state.memory.size

theorem start_holdings (program : Program) (journal : Journal) :
    (start program ({} : Collector) journal).holdings = 0 := rfl

theorem Completes.holdings {m next : Machine Collector} {op : Opcode} {change : Change m.state}
    (h : m.Completes op change next) : next.holdings + change.taken = m.holdings + change.given := by
  obtain ⟨below, hs, hn⟩ := h.stack
  have hls := congrArg List.length hs
  have hln := congrArg List.length hn
  simp only [Stack.bottomFirst, List.length_reverse, List.length_append] at hls hln
  have hout : next.output.values.length = m.output.values.length + change.emitted.length := by
    rw [h.output, Collector.values_accept, List.length_append]
  rw [Machine.holdings, Machine.holdings, Change.given, Change.taken, hls, hln, hout, h.memory]
  omega

theorem step_ok_holdings {m next : Machine Collector} {running : Bool} (h : step m = .ok running next) :
    (m.state.halted = true ∧ next = m) ∨ ∃ op, m.state.nextOpcode? = some op ∧ next.cycles = m.cycles + 1 ∧
      next.holdings ≤ m.holdings + op.growth ∧ (0 < op.growth → next.holdings = m.holdings + op.growth) := by
  rcases step_ok_cases h with ⟨hr, _, hn⟩ | ⟨_, op, change, hop, hc⟩
  · exact .inl ⟨hr, hn⟩
  · have hsum := hc.holdings
    have hle := hc.row.given_le
    refine .inr ⟨op, hop, hc.cycles, by omega, ?_⟩
    intro hg
    have heq := hc.row.given_of_growth hg
    omega

theorem step_error_holdings {m next : Machine Collector} {fault : Fault} (h : step m = .error fault next) :
    next.cycles = m.cycles ∧ next.holdings ≤ m.holdings := by
  obtain ⟨hf, hcycles, hout⟩ := faulted_of_step (not_halted_of_step_error h) h
  obtain ⟨lost, hs, _⟩ := hf.stack
  have hl := congrArg List.length hs
  simp only [Stack.bottomFirst, List.length_reverse, List.length_append] at hl
  refine ⟨hcycles, ?_⟩
  rw [holdings, holdings, hout, hf.memory, hl]
  omega

theorem History.holdings_le {m next : Machine Collector} {results : List (Option Fault)}
    (hm : m.holdings ≤ m.cycles) (h : History m results next) : next.holdings ≤ next.cycles := by
  refine h.keeps (fun m => m.holdings ≤ m.cycles) ?_ ?_ (fun _ hm => hm) hm
  · intro m next running hm hs
    rcases step_ok_holdings hs with ⟨_, rfl⟩ | ⟨op, _, hcycles, hle, _⟩
    · exact hm
    · have hone := op.growth_le_one
      omega
  · intro m next fault hm hs
    obtain ⟨hcycles, hle⟩ := step_error_holdings hs
    omega

theorem step_growth {m next : Machine Collector} {running : Bool} (h : step m = .ok running next) :
    next.holdings ≤ m.holdings + 1 ∧ (m.holdings < next.holdings ↔
      m.state.halted = false ∧ ∃ op ∈ [Opcode.push, .dup, .dupSecond], m.state.nextOpcode? = some op) := by
  cases hr : m.state.halted with
  | true =>
    rw [step_of_halted hr] at h
    cases h
    exact ⟨Nat.le_succ _, iff_of_false (Nat.lt_irrefl _) (fun hn => nomatch hn.1)⟩
  | false =>
    rcases step_ok_holdings h with ⟨hh, _⟩ | ⟨op, hop, _, hle, heq⟩
    · rw [hr] at hh
      cases hh
    · have hone := op.growth_le_one
      refine ⟨by omega, ?_⟩
      constructor
      · intro hlt
        exact ⟨rfl, op, op.growth_pos_iff.mp (by omega), hop⟩
      · rintro ⟨_, op', hmem, hop'⟩
        cases hop.symm.trans hop'
        have hpos := op.growth_pos_iff.mpr hmem
        have := heq hpos
        omega

theorem values_are_conserved (program : Program) (journal : Journal) :
    (∀ (results : List (Option Fault)) (m : Machine Collector), History (start program {} journal) results m →
        m.state.stack.length + m.output.values.length + 2 * m.state.memory.size ≤ m.cycles) ∧
      (∀ (m next : Machine Collector) (running : Bool), step m = .ok running next →
        next.holdings ≤ m.holdings + 1 ∧ (m.holdings < next.holdings ↔
          m.state.halted = false ∧ ∃ op ∈ [Opcode.push, .dup, .dupSecond], m.state.nextOpcode? = some op)) ∧
      ∀ (m next : Machine Collector) (fault : Fault), step m = .error fault next → next.holdings ≤ m.holdings := by
  refine ⟨?_, fun _ _ _ h => step_growth h, fun _ _ _ h => (step_error_holdings h).2⟩
  intro results m h
  exact h.holdings_le (Nat.le_of_eq (start_holdings program journal))

def growThenLabel : Program :=
  (((Program.empty.emitPush Number.nan).emit .dup).emit .dupSecond).push (.label "end")

theorem values_are_conserved_growThenLabel : ∃ m,
    History (start growThenLabel ({} : Collector) .silent) [some (.illegalValue 4 "end")] m ∧ m.cycles = 3 ∧
      m.holdings = 3 ∧ m.state.stack.length + m.output.values.length + 2 * m.state.memory.size ≤ 3 := by
  have hrun : ((start growThenLabel ({} : Collector) .silent).run 4).map (fun ending =>
      ((conclusion ending).fault?, ending.machine.cycles, ending.machine.holdings)) =
        some (some (.illegalValue 4 "end"), 3, 3) := by
    decide +kernel
  obtain ⟨ending, hending, hshown⟩ := Option.map_eq_some_iff.mp hrun
  obtain ⟨hfault, hcounts⟩ := Prod.mk.inj hshown
  obtain ⟨hcycles, hholdings⟩ := Prod.mk.inj hcounts
  cases ending with
  | ok _ m => cases hfault
  | error fault m =>
    cases hfault
    have h := History.nil.call (.runFault hending)
    have hle := (values_are_conserved growThenLabel .silent).1 _ m h
    exact ⟨m, h, hcycles, hholdings, hcycles ▸ hle⟩

end Machine

end StackMachine
