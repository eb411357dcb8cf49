import StackMachine.Machine.Run
import StackMachine.Proofs.Operands

/-!
The ways in which an instruction and a cycle end. Each exit is a rule with its exact condition and the
exact state that it leaves, and all that is known of steps and runs is read off these rules.
-/

namespace StackMachine

def State.advance (s : State) : State := { s with pc := s.pc + 1 }

/-- `Ends s i r`: the instruction `i`, whose opcode was fetched in `s`, ends with `r`. -/
inductive Instruction.Ends (s : State) : Instruction → EStateM.Result Fault State Effect → Prop
  | nop : Ends s .nop (.ok .quiet s)
  | push {x : Number} (h : s.rom.cell? s.pc = some (.number x)) :
      Ends s .push (.ok .quiet { s with pc := s.pc + 1, stack := x :: s.stack })
  | pushLabel {name : String} (h : s.rom.cell? s.pc = some (.label name)) :
      Ends s .push (.error (.illegalValue s.pc name) s.advance)
  | pushOverrun (h : s.rom.cell? s.pc = none) : Ends s .push (.error (.romOverrun s.pc s.rom.size) s)
  | load {a : Number} {rest : Stack} (h : s.stack = a :: rest) (ha : ¬ a.less Number.zero) :
      Ends s .load (.ok .quiet { s with stack := s.memory.read a :: rest })
  | loadAddress {a : Number} {rest : Stack} (h : s.stack = a :: rest) (ha : a.less Number.zero) :
      Ends s .load (.error (.illegalAddress a) { s with stack := rest })
  | loadEmpty (h : s.stack = []) : Ends s .load (.error (.stackUnderflow 1 0) s)
  | store {a value : Number} {rest : Stack} {memory : Memory} (h : s.stack = a :: value :: rest)
      (ha : ¬ a.less Number.zero) (hm : s.memory.Stores a value memory) :
      Ends s .store (.ok .quiet { s with stack := rest, memory })
  | storeAddress {a value : Number} {rest : Stack} (h : s.stack = a :: value :: rest)
      (ha : a.less Number.zero) : Ends s .store (.error (.illegalAddress a) { s with stack := rest })
  | storeSingle {a : Number} (h : s.stack = [a]) :
      Ends s .store (.error (.stackUnderflow 1 0) { s with stack := [] })
  | storeEmpty (h : s.stack = []) : Ends s .store (.error (.stackUnderflow 1 0) s)
  | halt : Ends s .halt (.ok .quiet { s with halted := true })
  | out {value : Number} {rest : Stack} (h : s.stack = value :: rest) :
      Ends s .out (.ok (.emitted value) { s with stack := rest })
  | outEmpty (h : s.stack = []) : Ends s .out (.error (.stackUnderflow 1 0) s)
  | operate {operation : Operation} {operands : List Number} {rest : Stack}
      (h : s.stack = operands.reverse ++ rest) (hl : operands.length = operation.arity) :
      Ends s (.operate operation) (.ok .quiet { s with stack := (operation.apply operands).reverse ++ rest })
  | operateUnderflow {operation : Operation} (h : s.stack.length < operation.arity) :
      Ends s (.operate operation) (.error (.stackUnderflow operation.arity s.stack.length) s)
  | branchTaken {condition : Condition} {offset : Number} {operands : List Number} {rest : Stack} {i : Nat}
      (h : s.stack = offset :: (operands.reverse ++ rest)) (hl : operands.length = condition.arity)
      (ht : condition.test operands = true) (hi : s.rom.HasIndex (Number.ofNat s.pc + offset) i) :
      Ends s (.branch condition) (.ok (.jumped s.pc i) { s with pc := i, stack := rest })
  | branchNotTaken {condition : Condition} {offset : Number} {operands : List Number} {rest : Stack}
      (h : s.stack = offset :: (operands.reverse ++ rest)) (hl : operands.length = condition.arity)
      (ht : condition.test operands = false) : Ends s (.branch condition) (.ok .quiet { s with stack := rest })
  | branchTarget {condition : Condition} {offset : Number} {operands : List Number} {rest : Stack}
      (h : s.stack = offset :: (operands.reverse ++ rest)) (hl : operands.length = condition.arity)
      (ht : condition.test operands = true) (hi : ∀ i, ¬ s.rom.HasIndex (Number.ofNat s.pc + offset) i) :
      Ends s (.branch condition)
        (.error (.illegalJumpTarget (Number.ofNat s.pc + offset) s.rom.size) { s with stack := rest })
  | branchUnderflow {condition : Condition} {offset : Number} {rest : Stack} (h : s.stack = offset :: rest)
      (hl : rest.length < condition.arity) :
      Ends s (.branch condition) (.error (.stackUnderflow condition.arity rest.length) { s with stack := rest })
  | branchEmpty {condition : Condition} (h : s.stack = []) :
      Ends s (.branch condition) (.error (.stackUnderflow 1 0) s)

namespace Stack

theorem popMany_append (operands : List Number) (rest : Stack) :
    popMany operands.length (operands.reverse ++ rest) = .ok (operands, rest) := by
  rw [popMany_of_le (by simp), List.take_left' (by simp), List.drop_left' (by simp), List.reverse_reverse]

theorem exists_operands {count : Nat} {stack : Stack} (h : count ≤ stack.length) :
    ∃ (operands : List Number) (rest : Stack), stack = operands.reverse ++ rest ∧ operands.length = count :=
  ⟨(stack.take count).reverse, stack.drop count, by simp, by simp [Nat.min_eq_left h]⟩

end Stack

namespace Action

theorem fetch_none {s : State} (h : s.rom.cell? s.pc = none) :
    fetch s = .error (.romOverrun s.pc s.rom.size) s := by
  simp only [fetch, h]

theorem fetch_number {s : State} {x : Number} (h : s.rom.cell? s.pc = some (.number x)) :
    fetch s = .ok x s.advance := by
  simp only [fetch, h, State.advance]

theorem fetch_label {s : State} {name : String} (h : s.rom.cell? s.pc = some (.label name)) :
    fetch s = .error (.illegalValue s.pc name) s.advance := by
  simp only [fetch, h, State.advance]

theorem pop_cons {s : State} {value : Number} {rest : Stack} (h : s.stack = value :: rest) :
    pop s = .ok value { s with stack := rest } := by
  simp only [pop, h, Stack.pop]

theorem pop_nil {s : State} (h : s.stack = []) : pop s = .error (.stackUnderflow 1 0) s := by
  simp only [pop, h, Stack.pop]

theorem popMany_operands {s : State} {operands : List Number} {rest : Stack} (h : s.stack = operands.reverse ++ rest)
    {count : Nat} (hl : operands.length = count) : popMany count s = .ok operands { s with stack := rest } := by
  simp only [popMany, h, ← hl, Stack.popMany_append]

theorem popMany_underflow {s : State} {count : Nat} (h : s.stack.length < count) :
    popMany count s = .error (.stackUnderflow count s.stack.length) s := by
  simp only [popMany, Stack.popMany_of_lt h]

theorem jumpTo_index {s : State} {target : Number} {i : Nat} (h : s.rom.HasIndex target i) :
    jumpTo target s = .ok () { s with pc := i } := by
  simp only [jumpTo, (Program.filter_toIndex?_eq_some_iff s.rom target i).mpr h]

theorem jumpTo_no_index {s : State} {target : Number} (h : ∀ i, ¬ s.rom.HasIndex target i) :
    jumpTo target s = .error (.illegalJumpTarget target s.rom.size) s := by
  have hn : target.toIndex?.filter (· < s.rom.size) = none := by
    rw [Option.eq_none_iff_forall_ne_some]
    exact fun i hi => h i ((Program.filter_toIndex?_eq_some_iff s.rom target i).mp hi)
  simp only [jumpTo, hn]

theorem load_legal {s : State} {a : Number} (h : ¬ a.less Number.zero) : load a s = .ok (s.memory.read a) s := by
  simp only [load, Memory.load_of_not_less h]

theorem load_illegal {s : State} {a : Number} (h : a.less Number.zero) : load a s = .error (.illegalAddress a) s := by
  simp only [load, Memory.load_of_less h]

theorem store_legal {s : State} {a value : Number} {memory : Memory} (h : s.memory.Stores a value memory) :
    store a value s = .ok () { s with memory } := by
  simp only [store, h.store]

theorem store_illegal {s : State} {a : Number} (h : a.less Number.zero) (value : Number) :
    store a value s = .error (.illegalAddress a) s := by
  simp only [store, Memory.store_of_less h]

end Action

section Bind

variable {ε σ α β : Type} {x : EStateM ε σ α} {f : α → EStateM ε σ β} {s t : σ}

theorem bind_ok {a : α} (h : x s = .ok a t) : (x >>= f) s = f a t := by
  simp only [bind, EStateM.bind, h]

theorem bind_error {e : ε} (h : x s = .error e t) : (x >>= f) s = .error e t := by
  simp only [bind, EStateM.bind, h]

theorem bind_get {g : σ → EStateM ε σ β} : (get >>= g) s = g s s := rfl

theorem bind_modify {g : σ → σ} {k : PUnit → EStateM ε σ β} : (modify g >>= k) s = k ⟨⟩ (g s) := rfl

end Bind

namespace Instruction

theorem push_ends (s : State) : Ends s .push (execute .push s) := by
  rw [execute]
  cases h : s.rom.cell? s.pc with
  | none =>
    rw [bind_error (Action.fetch_none h)]
    exact .pushOverrun h
  | some cell =>
    cases cell with
    | number x =>
      rw [bind_ok (Action.fetch_number h)]
      exact .push h
    | label name =>
      rw [bind_error (Action.fetch_label h)]
      exact .pushLabel h

theorem load_ends (s : State) : Ends s .load (execute .load s) := by
  rw [execute]
  cases h : s.stack with
  | nil =>
    rw [bind_error (Action.pop_nil h)]
    exact .loadEmpty h
  | cons a rest =>
    rw [bind_ok (Action.pop_cons h)]
    by_cases ha : a.less Number.zero
    · rw [bind_error (Action.load_illegal ha)]
      exact .loadAddress h ha
    · rw [bind_ok (Action.load_legal ha)]
      exact .load h ha

theorem store_ends (s : State) : Ends s .store (execute .store s) := by
  rw [execute]
  cases h : s.stack with
  | nil =>
    rw [bind_error (Action.pop_nil h)]
    exact .storeEmpty h
  | cons a below =>
    rw [bind_ok (Action.pop_cons h)]
    cases below with
    | nil =>
      rw [bind_error (Action.pop_nil rfl)]
      exact .storeSingle h
    | cons value rest =>
      rw [bind_ok (Action.pop_cons rfl)]
      by_cases ha : a.less Number.zero
      · rw [bind_error (Action.store_illegal ha value)]
        exact .storeAddress h ha
      · obtain ⟨memory, hm⟩ := Memory.exists_stores ha s.memory value
        rw [bind_ok (Action.store_legal (s := { s with stack := rest }) hm)]
        exact .store h ha hm

theorem out_ends (s : State) : Ends s .out (execute .out s) := by
  rw [execute]
  cases h : s.stack with
  | nil =>
    rw [bind_error (Action.pop_nil h)]
    exact .outEmpty h
  | cons value rest =>
    rw [bind_ok (Action.pop_cons h)]
    exact .out h

theorem operate_ends (operation : Operation) (s : State) :
    Ends s (.operate operation) (execute (.operate operation) s) := by
  rw [execute]
  by_cases hl : s.stack.length < operation.arity
  · rw [bind_error (Action.popMany_underflow hl)]
    exact .operateUnderflow hl
  · obtain ⟨operands, rest, h, hl⟩ := Stack.exists_operands (Nat.not_lt.mp hl)
    rw [bind_ok (Action.popMany_operands h hl)]
    exact .operate h hl

theorem branch_ends (condition : Condition) (s : State) :
    Ends s (.branch condition) (execute (.branch condition) s) := by
  rw [execute]
  cases h : s.stack with
  | nil =>
    rw [bind_error (Action.pop_nil h)]
    exact .branchEmpty h
  | cons offset below =>
    rw [bind_ok (Action.pop_cons h)]
    by_cases hl : below.length < condition.arity
    · rw [bind_error (Action.popMany_underflow hl)]
      exact .branchUnderflow h hl
    · obtain ⟨operands, rest, rfl, ho⟩ := Stack.exists_operands (Nat.not_lt.mp hl)
      rw [bind_ok (Action.popMany_operands rfl ho)]
      cases ht : condition.test operands with
      | false =>
        simp only [Bool.false_eq_true, ↓reduceIte]
        exact .branchNotTaken h ho ht
      | true =>
        simp only [↓reduceIte]
        by_cases hi : ∃ i, s.rom.HasIndex (Number.ofNat s.pc + offset) i
        · obtain ⟨i, hi⟩ := hi
          have hj : Action.jump offset { s with stack := rest } = .ok () { s with pc := i, stack := rest } :=
            Action.jumpTo_index (s := { s with stack := rest }) hi
          rw [bind_get, bind_ok hj]
          exact .branchTaken h ho ht hi
        · have hn : ∀ i, ¬ s.rom.HasIndex (Number.ofNat s.pc + offset) i := fun i h => hi ⟨i, h⟩
          have hj := Action.jumpTo_no_index (s := { s with stack := rest }) hn
          rw [bind_get, bind_error (x := Action.jump offset) hj]
          exact .branchTarget h ho ht hn

theorem execute_ends (i : Instruction) (s : State) : Ends s i (execute i s) := by
  cases i with
  | nop => exact .nop
  | push => exact push_ends s
  | load => exact load_ends s
  | store => exact store_ends s
  | halt => exact .halt
  | out => exact out_ends s
  | operate operation => exact operate_ends operation s
  | branch condition => exact branch_ends condition s

theorem Ends.execute_eq {s t : State} {i : Instruction} {effect : Effect} (h : Ends s i (.ok effect t)) :
    execute i s = .ok effect t := by
  cases h with
  | nop => rfl
  | halt => rfl
  | push h =>
    rw [execute, bind_ok (Action.fetch_number h)]
    rfl
  | load h ha =>
    rw [execute, bind_ok (Action.pop_cons h), bind_ok (Action.load_legal ha)]
    rfl
  | @store a value rest memory h ha hm =>
    rw [execute, bind_ok (Action.pop_cons h), bind_ok (Action.pop_cons rfl),
      bind_ok (Action.store_legal (s := { s with stack := rest }) hm)]
    rfl
  | out h =>
    rw [execute, bind_ok (Action.pop_cons h)]
    rfl
  | operate h hl =>
    rw [execute, bind_ok (Action.popMany_operands h hl)]
    rfl
  | @branchTaken condition offset operands rest i h hl ht hi =>
    have hj : Action.jump offset { s with stack := rest } = .ok () { s with pc := i, stack := rest } :=
      Action.jumpTo_index (s := { s with stack := rest }) hi
    rw [execute, bind_ok (Action.pop_cons h), bind_ok (Action.popMany_operands rfl hl), if_pos ht, bind_get, bind_ok hj]
    rfl
  | branchNotTaken h hl ht =>
    rw [execute, bind_ok (Action.pop_cons h), bind_ok (Action.popMany_operands rfl hl),
      if_neg (Bool.eq_false_iff.mp ht)]
    rfl

end Instruction

end StackMachine
