import StackMachine.CommandLine.Application
import StackMachine.CommandLine.Arguments
import StackMachine.CommandLine.Scan
import StackMachine.Decimal.Basic
import StackMachine.Decimal.Literal
import StackMachine.Decimal.Style
import StackMachine.Program.Listing
import StackMachine.Machine.Stack
import StackMachine.Log
import StackMachine.Machine.Execution
import StackMachine.Machine.Instruction
import StackMachine.Machine.Memory
import StackMachine.Machine.Run
import StackMachine.Machine.State
import StackMachine.Main
import StackMachine.Number.Arithmetic
import StackMachine.Number.Basic
import StackMachine.Output
import StackMachine.Program.Basic
import StackMachine.Program.Disassembly
import StackMachine.Program.Opcode
import StackMachine.Proofs.Agreement
import StackMachine.Proofs.Blocks
import StackMachine.Proofs.Conservation
import StackMachine.Proofs.Cycles
import StackMachine.Proofs.Diagnostics
import StackMachine.Proofs.Exactness
import StackMachine.Proofs.FaultFrame
import StackMachine.Proofs.Fetches
import StackMachine.Proofs.Fibonacci
import StackMachine.Proofs.Histories
import StackMachine.Proofs.InstructionSet
import StackMachine.Proofs.Jumps
import StackMachine.Proofs.Layout
import StackMachine.Proofs.Literals
import StackMachine.Proofs.Lockstep
import StackMachine.Proofs.Nearest
import StackMachine.Proofs.Numerals
import StackMachine.Proofs.Observation
import StackMachine.Proofs.Operands
import StackMachine.Proofs.Outcomes
import StackMachine.Proofs.ReadBack
import StackMachine.Proofs.Reassembly
import StackMachine.Proofs.Relocation
import StackMachine.Proofs.Rounding
import StackMachine.Proofs.Runs
import StackMachine.Proofs.Scanner
import StackMachine.Proofs.Sessions
import StackMachine.Proofs.Snapshots
import StackMachine.Proofs.StackFrame
import StackMachine.Proofs.StepCorrectness
import StackMachine.Proofs.Storage
import StackMachine.Proofs.StraightLine
import StackMachine.Proofs.Sweep
import StackMachine.Proofs.Termination
import StackMachine.Proofs.Tokens
import StackMachine.Proofs.Tracing
import StackMachine.Proofs.Values
import StackMachine.Proofs.Words
import StackMachine.Proofs.Writing
import StackMachine.Session
import StackMachine.Text
import StackMachine.Proofs.Remainder
import StackMachine.Proofs.Checks
import StackMachine.Proofs.Underflow
import StackMachine.Proofs.Safety
import StackMachine.Proofs.Comparisons
import StackMachine.Proofs.Sources
import StackMachine.Proofs.Spelling
