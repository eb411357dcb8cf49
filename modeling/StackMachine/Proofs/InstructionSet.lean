import Mathlib.Data.List.Basic
import StackMachine.Proofs.Cycles

namespace StackMachine

namespace Stack

theorem bottomFirst_of_append {stack rest : Stack} (values : List Number) (h : stack = values.reverse ++ rest) :
    stack.bottomFirst = rest.bottomFirst ++ values :=
  h ▸ bottomFirst_pushAll rest values

theorem bottomFirst_of_branch {stack rest : Stack} {operands : List Number} {offset : Number}
    (h : stack = offset :: (operands.reverse ++ rest)) :
    stack.bottomFirst = rest.bottomFirst ++ (operands ++ [offset]) :=
  bottomFirst_of_append (operands ++ [offset]) (by simpa using h)

end Stack

namespace Opcode

def isOperation : Opcode → Bool
  | drop | dup | dupSecond | swap | add | sub | mul | div | mod | not | and | or => true
  | _ => false

def isBranch : Opcode → Bool
  | jmp | jz | jnz | je | jg | jl => true
  | _ => false

/-- How many values the opcode takes from the stack, the offset of a branch counted. -/
def operandCount : Opcode → Nat
  | nop | push | halt => 0
  | drop | dup | load | jmp | out | not => 1
  | dupSecond | swap | store | jz | jnz | add | sub | mul | div | mod | and | or => 2
  | je | jg | jl => 3

inductive Jumps : Opcode → List Number → Prop
  | jmp : Jumps jmp []
  | jz {a : Number} (h : a.equal Number.zero) : Jumps jz [a]
  | jnz {a : Number} (h : ¬ a.equal Number.zero) : Jumps jnz [a]
  | je {a b : Number} (h : a.equal b) : Jumps je [a, b]
  | jg {a b : Number} (h : a.greater b) : Jumps jg [a, b]
  | jl {a b : Number} (h : a.less b) : Jumps jl [a, b]

theorem takes_operands {op : Opcode} (h : op.isOperation = true ∨ op.isBranch = true) :
    op ≠ nop ∧ op ≠ push ∧ op ≠ halt := by
  refine ⟨?_, ?_, ?_⟩ <;> rintro rfl <;> cases h <;> contradiction

theorem Jumps.length {op : Opcode} {operands : List Number} (h : op.Jumps operands) :
    operands.length + 1 = op.operandCount := by
  cases h <;> rfl

end Opcode

structure Change (s : State) where
  consumed : List Number := []
  results : List Number := []
  emitted : List Number := []
  memory : Memory := s.memory
  pc : Nat := s.pc + 1

inductive Row (s : State) : Opcode → Change s → Prop
  | nop : Row s .nop {}
  | push {x : Number} (h : s.rom.cell? (s.pc + 1) = some (.number x)) :
      Row s .push { results := [x], pc := s.pc + 2 }
  | drop (a : Number) : Row s .drop { consumed := [a] }
  | dup (a : Number) : Row s .dup { consumed := [a], results := [a, a] }
  | dupSecond (a b : Number) : Row s .dupSecond { consumed := [a, b], results := [a, b, a] }
  | swap (a b : Number) : Row s .swap { consumed := [a, b], results := [b, a] }
  | load {a value : Number} (h : s.memory.load a = .ok value) :
      Row s .load { consumed := [a], results := [value] }
  | store {a value : Number} {memory : Memory} (h : s.memory.Stores a value memory) :
      Row s .store { consumed := [value, a], memory }
  | jump {op : Opcode} {operands : List Number} {offset : Number} {i : Nat} (h : op.Jumps operands)
      (hi : s.rom.HasIndex (Number.ofNat (s.pc + 1) + offset) i) :
      Row s op { consumed := operands ++ [offset], pc := i }
  | fallThrough {op : Opcode} {operands : List Number} {offset : Number} (hb : op.isBranch = true)
      (hl : operands.length + 1 = op.operandCount) (h : ¬ op.Jumps operands) :
      Row s op { consumed := operands ++ [offset] }
  | halt : Row s .halt {}
  | out (a : Number) : Row s .out { consumed := [a], emitted := [a] }
  | add (a b : Number) : Row s .add { consumed := [a, b], results := [a + b] }
  | sub (a b : Number) : Row s .sub { consumed := [a, b], results := [a - b] }
  | mul (a b : Number) : Row s .mul { consumed := [a, b], results := [a * b] }
  | div (a b : Number) : Row s .div { consumed := [a, b], results := [a / b] }
  | mod (a b : Number) : Row s .mod { consumed := [a, b], results := [a % b] }
  | not (a : Number) : Row s .not { consumed := [a], results := [a.bitNot] }
  | and (a b : Number) : Row s .and { consumed := [a, b], results := [a.bitAnd b] }
  | or (a b : Number) : Row s .or { consumed := [a, b], results := [a.bitOr b] }

namespace Opcode

theorem of_instruction {op : Opcode} {i : Instruction} : op.instruction = i →
    match i with
    | .nop => op = nop
    | .push => op = push
    | .load => op = load
    | .store => op = store
    | .halt => op = halt
    | .out => op = out
    | .operate operation => op.isOperation = true ∧ op.operandCount = operation.arity
    | .branch condition => op.isBranch = true ∧ op.operandCount = condition.arity + 1 := by
  rintro rfl
  cases op <;> simp only [instruction] <;> exact ⟨rfl, rfl⟩

theorem row_of_operate (s : State) {op : Opcode} {operation : Operation} (h : op.instruction = .operate operation)
    {operands : List Number} (hl : operands.length = operation.arity) :
    Row s op { consumed := operands, results := operation.apply operands } := by
  cases op <;> cases h
  case drop =>
    obtain ⟨a, rfl⟩ := List.length_eq_one_iff.mp hl
    exact .drop a
  case dup =>
    obtain ⟨a, rfl⟩ := List.length_eq_one_iff.mp hl
    exact .dup a
  case dupSecond =>
    obtain ⟨a, b, rfl⟩ := List.length_eq_two.mp hl
    exact .dupSecond a b
  case swap =>
    obtain ⟨a, b, rfl⟩ := List.length_eq_two.mp hl
    exact .swap a b
  case add =>
    obtain ⟨a, b, rfl⟩ := List.length_eq_two.mp hl
    exact .add a b
  case sub =>
    obtain ⟨a, b, rfl⟩ := List.length_eq_two.mp hl
    exact .sub a b
  case mul =>
    obtain ⟨a, b, rfl⟩ := List.length_eq_two.mp hl
    exact .mul a b
  case div =>
    obtain ⟨a, b, rfl⟩ := List.length_eq_two.mp hl
    exact .div a b
  case mod =>
    obtain ⟨a, b, rfl⟩ := List.length_eq_two.mp hl
    exact .mod a b
  case not =>
    obtain ⟨a, rfl⟩ := List.length_eq_one_iff.mp hl
    exact .not a
  case and =>
    obtain ⟨a, b, rfl⟩ := List.length_eq_two.mp hl
    exact .and a b
  case or =>
    obtain ⟨a, b, rfl⟩ := List.length_eq_two.mp hl
    exact .or a b

theorem test_iff_jumps {op : Opcode} {condition : Condition} (h : op.instruction = .branch condition)
    {operands : List Number} (hl : operands.length = condition.arity) :
    condition.test operands = true ↔ op.Jumps operands := by
  cases op <;> cases h
  case jmp =>
    obtain rfl := List.length_eq_zero_iff.mp hl
    exact iff_of_true rfl .jmp
  case jz =>
    obtain ⟨a, rfl⟩ := List.length_eq_one_iff.mp hl
    exact a.isZero_iff_equal_zero.trans ⟨.jz, fun | .jz h => h⟩
  case jnz =>
    obtain ⟨a, rfl⟩ := List.length_eq_one_iff.mp hl
    change (!a.isZero) = true ↔ _
    rw [Bool.not_eq_true', ← Bool.not_eq_true, a.isZero_iff_equal_zero]
    exact ⟨.jnz, fun | .jnz h => h⟩
  case je =>
    obtain ⟨a, b, rfl⟩ := List.length_eq_two.mp hl
    exact ⟨.je, fun | .je h => h⟩
  case jg =>
    obtain ⟨a, b, rfl⟩ := List.length_eq_two.mp hl
    exact ⟨.jg, fun | .jg h => h⟩
  case jl =>
    obtain ⟨a, b, rfl⟩ := List.length_eq_two.mp hl
    exact ⟨.jl, fun | .jl h => h⟩

end Opcode

end StackMachine
