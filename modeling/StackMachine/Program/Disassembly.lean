import StackMachine.Program.Basic
import StackMachine.Text

namespace StackMachine

namespace Disassembly

inductive Content where
  | instruction (opcode : Opcode) (literals : List (Option Cell))
  | data (cell : Cell)
deriving DecidableEq

structure Entry where
  address : Nat
  content : Content
deriving DecidableEq

def addressText (address : Nat) : String :=
  let digits := Nat.toDigits 16 address
  String.ofList (List.replicate (4 - digits.length) '0' ++ digits)

def Content.text : Content → String
  | instruction opcode literals =>
    literals.foldl (fun line literal => line ++ " " ++ (literal.map Cell.text).getD "?") opcode.mnemonic
  | data cell => ".data " ++ cell.text

def Entry.line (e : Entry) : String := addressText e.address ++ "  " ++ e.content.text ++ "\n"

def Entry.width (e : Entry) : Nat :=
  match e.content with
  | .instruction opcode _ => 1 + opcode.literalCount
  | .data _ => 1

def entryAt (p : Program) (address : Nat) (cell : Cell) : Entry :=
  match cell.opcode? with
  | some opcode =>
    ⟨address, .instruction opcode ((List.range opcode.literalCount).map fun i => p.cell? (address + 1 + i))⟩
  | none => ⟨address, .data cell⟩

theorem entryAt_width_pos (p : Program) (address : Nat) (cell : Cell) :
    0 < (entryAt p address cell).width := by
  unfold entryAt
  split <;> simp only [Entry.width] <;> omega

def sweep (p : Program) (address : Nat) (done : Array Entry) : Array Entry :=
  if h : address < p.size then
    let entry := entryAt p address p.cells[address]
    sweep p (address + entry.width) (done.push entry)
  else done
termination_by p.size - address
decreasing_by
  have := entryAt_width_pos p address p.cells[address]
  omega

end Disassembly

namespace Program

def disassembly (p : Program) : List Disassembly.Entry := (Disassembly.sweep p 0 #[]).toList

def disassemble (p : Program) : String := String.join (p.disassembly.map Disassembly.Entry.line)

/-- The end of the disassembly. A label that holds line feeds takes several of the lines. -/
def disassembleTail (p : Program) (lines : Nat) : String :=
  String.ofList (Text.lastLines lines p.disassemble.toList)

end Program

end StackMachine
