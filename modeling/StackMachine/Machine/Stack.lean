import StackMachine.Decimal.Style

namespace StackMachine

inductive Fault where
  | illegalValue (pc : Nat) (name : String)
  | romOverrun (pc size : Nat)
  | illegalOpcode (code : Number)
  | stackUnderflow (needed depth : Nat)
  | illegalAddress (address : Number)
  | illegalJumpTarget (target : Number) (size : Nat)
deriving DecidableEq

def Fault.message : Fault → String
  | illegalValue pc name => "illegal value '" ++ name ++ "' at rom[" ++ toString pc ++ "]"
  | romOverrun pc size =>
    "fetch at rom[" ++ toString pc ++ "] is past the end of rom (length " ++ toString size ++ ")"
  | illegalOpcode code => "illegal opcode '" ++ code.text ++ "'"
  | stackUnderflow needed depth =>
    "popping from empty stack (needed " ++ toString needed ++ ", stack has " ++ toString depth ++ ")"
  | illegalAddress address => "illegal address '" ++ address.text ++ "'"
  | illegalJumpTarget target size =>
    "illegal jump target '" ++ target.text ++ "' (rom length " ++ toString size ++ ")"

/-- An operand stack, the top first. -/
abbrev Stack := List Number

namespace Stack

def bottomFirst (stack : Stack) : List Number := stack.reverse

def push (stack : Stack) (value : Number) : Stack := value :: stack

def pushAll (stack : Stack) (values : List Number) : Stack := values.reverse ++ stack

def pop : Stack → Except Fault (Number × Stack)
  | [] => .error (.stackUnderflow 1 0)
  | value :: rest => .ok (value, rest)

/-- The `count` values at the top, in the order in which they were pushed, and what is below them. -/
def popMany (count : Nat) (stack : Stack) : Except Fault (List Number × Stack) :=
  let operands := stack.take count
  if operands.length = count then .ok (operands.reverse, stack.drop count)
  else .error (.stackUnderflow count stack.length)

theorem bottomFirst_push (stack : Stack) (value : Number) :
    (stack.push value).bottomFirst = stack.bottomFirst ++ [value] := by
  simp [push, bottomFirst]

theorem bottomFirst_pushAll (stack : Stack) (values : List Number) :
    (stack.pushAll values).bottomFirst = stack.bottomFirst ++ values := by
  simp [pushAll, bottomFirst]

theorem popMany_of_le {count : Nat} {stack : Stack} (h : count ≤ stack.length) :
    stack.popMany count = .ok ((stack.take count).reverse, stack.drop count) := by
  simp [popMany, Nat.min_eq_left h]

theorem popMany_of_lt {count : Nat} {stack : Stack} (h : stack.length < count) :
    stack.popMany count = .error (.stackUnderflow count stack.length) := by
  simp [popMany]
  omega

end Stack

end StackMachine
