import StackMachine.Machine.Instruction
import StackMachine.Machine.State

namespace StackMachine

inductive Effect where
  | quiet
  | emitted (value : Number)
  | jumped (source target : Nat)
deriving DecidableEq

namespace Instruction

def execute : Instruction → Action Effect
  | nop => return .quiet
  | push => do
    let literal ← Action.fetch
    Action.push literal
    return .quiet
  | load => do
    let address ← Action.pop
    let value ← Action.load address
    Action.push value
    return .quiet
  | store => do
    let address ← Action.pop
    let value ← Action.pop
    Action.store address value
    return .quiet
  | halt => do
    Action.halt
    return .quiet
  | out => do
    let value ← Action.pop
    return .emitted value
  | operate operation => do
    let operands ← Action.popMany operation.arity
    Action.pushAll (operation.apply operands)
    return .quiet
  | branch condition => do
    let offset ← Action.pop
    let operands ← Action.popMany condition.arity
    if condition.test operands then
      let source := (← get).pc
      Action.jump offset
      return .jumped source (← get).pc
    else
      return .quiet

end Instruction

namespace Action

def fetchOpcode : Action Opcode := do
  let code ← fetch
  match Opcode.ofNumber? code with
  | some opcode => return opcode
  | none => throw (.illegalOpcode code)

def execute (opcode : Opcode) : Action Effect := opcode.instruction.execute

def haltAtEnd : Action Unit := modify fun s => { s with halted := s.halted || s.pastEnd }

end Action

end StackMachine
