import StackMachine.Number.Arithmetic
import StackMachine.Program.Opcode

namespace StackMachine

structure Operation where
  arity : Nat
  results : Nat
  apply : List Number → List Number

structure Condition where
  arity : Nat
  test : List Number → Bool

inductive Instruction where
  | nop
  | push
  | load
  | store
  | halt
  | out
  | operate (operation : Operation)
  | branch (condition : Condition)

namespace Operation

def drop : Operation := ⟨1, 0, fun _ => []⟩

def dup : Operation where
  arity := 1
  results := 2
  apply
    | [a] => [a, a]
    | _ => []

def dupSecond : Operation where
  arity := 2
  results := 3
  apply
    | [a, b] => [a, b, a]
    | _ => []

def swap : Operation where
  arity := 2
  results := 2
  apply
    | [a, b] => [b, a]
    | _ => []

def unary (f : Number → Number) : Operation where
  arity := 1
  results := 1
  apply
    | [a] => [f a]
    | _ => []

def binary (f : Number → Number → Number) : Operation where
  arity := 2
  results := 1
  apply
    | [a, b] => [f a b]
    | _ => []

end Operation

namespace Condition

def always : Condition := ⟨0, fun _ => true⟩

def unary (p : Number → Bool) : Condition where
  arity := 1
  test
    | [a] => p a
    | _ => false

def binary (p : Number → Number → Bool) : Condition where
  arity := 2
  test
    | [a, b] => p a b
    | _ => false

end Condition

def Opcode.instruction : Opcode → Instruction
  | nop => .nop
  | push => .push
  | drop => .operate .drop
  | dup => .operate .dup
  | dupSecond => .operate .dupSecond
  | swap => .operate .swap
  | load => .load
  | store => .store
  | jmp => .branch .always
  | jz => .branch (.unary (·.isZero))
  | jnz => .branch (.unary (!·.isZero))
  | je => .branch (.binary Number.equal)
  | jg => .branch (.binary Number.greater)
  | jl => .branch (.binary Number.less)
  | halt => .halt
  | out => .out
  | add => .operate (.binary (· + ·))
  | sub => .operate (.binary (· - ·))
  | mul => .operate (.binary (· * ·))
  | div => .operate (.binary (· / ·))
  | mod => .operate (.binary (· % ·))
  | not => .operate (.unary Number.bitNot)
  | and => .operate (.binary Number.bitAnd)
  | or => .operate (.binary Number.bitOr)

namespace Instruction

/-- How many operands an operation takes or a branch tests, the offset of the branch not counted. -/
def arity? : Instruction → Option Nat
  | operate operation => some operation.arity
  | branch condition => some condition.arity
  | _ => none

def results? : Instruction → Option Nat
  | operate operation => some operation.results
  | _ => none

end Instruction

end StackMachine
