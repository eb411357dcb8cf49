import StackMachine.Program.Opcode
import StackMachine.Decimal.Style

/-!
Programs: the cells of a read-only memory. A label is a placeholder that nothing has replaced by a
number; it may stand in a program but cannot be executed.
-/

namespace StackMachine

inductive Cell where
  | number (value : Number)
  | label (name : String)
deriving DecidableEq

namespace Cell

def number? : Cell → Option Number
  | number value => some value
  | label _ => none

def isNumber (cell : Cell) : Bool := cell.number?.isSome

def opcode? (cell : Cell) : Option Opcode := cell.number?.bind Opcode.ofNumber?

def text : Cell → String
  | number value => value.text
  | label name => name

/-- Numbers are compared by value, so that NaN differs from itself and the two zeros are equal. -/
def equal : Cell → Cell → Bool
  | number a, number b => a.equal b
  | label a, label b => a == b
  | _, _ => false

end Cell

structure Program where
  cells : Array Cell
deriving DecidableEq

namespace Program

def empty : Program := ⟨#[]⟩

def ofCells (cells : List Cell) : Program := ⟨cells.toArray⟩

def ofNumbers (numbers : List Number) : Program := ofCells (numbers.map .number)

def size (p : Program) : Nat := p.cells.size

def isEmpty (p : Program) : Bool := p.cells.isEmpty

def cell? (p : Program) (i : Nat) : Option Cell := p.cells[i]?

def push (p : Program) (cell : Cell) : Program := ⟨p.cells.push cell⟩

def emit (p : Program) (op : Opcode) : Program := p.push (.number op.number)

def emitPush (p : Program) (value : Number) : Program := (p.emit .push).push (.number value)

def equal (p q : Program) : Bool :=
  p.size == q.size && (p.cells.toList.zip q.cells.toList).all fun (a, b) => a.equal b

end Program

end StackMachine
