import StackMachine.Decimal.Literal
import StackMachine.Program.Basic
import StackMachine.Text

namespace StackMachine

namespace Listing

def pieces (p : Char → Bool) (text : List Char) : List (List Char) :=
  text.foldr (fun c words =>
    if p c then [] :: words
    else match words with
      | [] => [[c]]
      | word :: words => (c :: word) :: words) [[]]

def lines (source : List Char) : List (List Char) := (Text.lines source).map Text.chomp

def code : List Char → List Char
  | [] => []
  | '#' :: _ => []
  | '/' :: '/' :: _ => []
  | c :: rest => c :: code rest

def isSeparator (c : Char) : Bool :=
  Text.isBlank c || c == ',' || c == ';' || c == '[' || c == ']'

def tokens (line : List Char) : List (List Char) :=
  (pieces isSeparator (code line)).filter (!·.isEmpty)

def cell (token : List Char) : Cell :=
  match Opcode.ofMnemonic? token with
  | some op => .number op.number
  | none =>
    match Literal.read? token with
    | some value => .number value
    | none => .label (String.ofList token)

def cells (source : List Char) : List Cell := ((lines source).flatMap tokens).map cell

end Listing

def Program.ofListing (source : String) : Program := ofCells (Listing.cells source.toList)

end StackMachine

namespace StackMachine.Demo

def listing : String :=
  "// Initialize counter and operands
0x01, 10, 0x01, 0, 0x07,            // PUSH 10; PUSH 0; STORE
0x01,  1, 0x01, 1, 0x07,            // PUSH  1; PUSH 1; STORE
0x01,  0, 0x01, 2, 0x07,            // PUSH  0; PUSH 2; STORE

// Next term is the sum of the last two
0x01, 1, 0x06,                      // PUSH 1; LOAD
0x01, 2, 0x06,                      // PUSH 2; LOAD
0x04,                               // OVER
0x10,                               // ADD
0x03, 0x0F,                         // DUP; OUT
0x01, 1, 0x07,                      // PUSH 1; STORE
0x01, 2, 0x07,                      // PUSH 2; STORE

// Decrement the counter and loop until it reaches zero
0x01, 0, 0x06,                      // PUSH 0; LOAD
0x01, 1, 0x11,                      // SUB 1
0x03, 0x01, 0, 0x07,                // DUP; PUSH 0; STORE
0x01, -29, 0x0A,                    // PUSH -29; JNZ
"

def program : Program := Program.ofListing listing

end StackMachine.Demo
