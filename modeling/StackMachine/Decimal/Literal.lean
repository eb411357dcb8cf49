import StackMachine.Decimal.Basic
import StackMachine.Number.Arithmetic

namespace StackMachine.Literal

def digitValue (c : Char) : Nat := c.toNat - '0'.toNat

def decimalValue (digits : List Char) : Nat :=
  digits.foldl (fun n c => 10 * n + digitValue c) 0

def hexDigit? (c : Char) : Option Nat :=
  if c.isDigit then some (digitValue c)
  else if 'a' ≤ c ∧ c ≤ 'f' then some (c.toNat - 'a'.toNat + 10)
  else if 'A' ≤ c ∧ c ≤ 'F' then some (c.toNat - 'A'.toNat + 10)
  else none

def hexValue? (digits : List Char) : Option Nat :=
  digits.foldlM (fun n c => (hexDigit? c).map (16 * n + ·)) 0

def splitSign : List Char → Bool × List Char
  | '-' :: rest => (true, rest)
  | '+' :: rest => (false, rest)
  | rest => (false, rest)

def wordCount : Nat := 0x10000000000000000

/-- A 64-bit word in hexadecimal digits, which may follow a plus sign of their own. -/
def readHex? (body : List Char) : Option Nat :=
  let digits := match body with
    | '+' :: rest => rest
    | _ => body
  if digits.isEmpty then none else (hexValue? digits).filter (· < wordCount)

def readExponent? : List Char → Option Int
  | [] => some 0
  | mark :: rest =>
    let (negative, digits) := splitSign rest
    if (mark == 'e' || mark == 'E') && !digits.isEmpty && digits.all Char.isDigit then
      some (if negative then -(decimalValue digits : Int) else decimalValue digits)
    else none

def readDecimal? (body : List Char) : Option Decimal :=
  let whole := body.takeWhile Char.isDigit
  let tail := body.dropWhile Char.isDigit
  let (fraction, rest) := match tail with
    | '.' :: after => (after.takeWhile Char.isDigit, after.dropWhile Char.isDigit)
    | _ => ([], tail)
  if whole.isEmpty && fraction.isEmpty then none
  else (readExponent? rest).map fun e => ⟨decimalValue (whole ++ fraction), e - fraction.length⟩

def readName? (negative : Bool) (body : List Char) : Option Number :=
  let lower := body.map Char.toLower
  if lower = ['i', 'n', 'f'] ∨ lower = ['i', 'n', 'f', 'i', 'n', 'i', 't', 'y'] then some (Number.infinity negative)
  else if lower = ['n', 'a', 'n'] then some { Number.nan with negative }
  else none

/-- The general reader of numbers, which takes a sign of its own and the names. -/
def readFloat? (text : List Char) : Option Number :=
  let (negative, body) := splitSign text
  (readDecimal? body).map (Decimal.toNumber negative) <|> readName? negative body

def startsDecimal : List Char → Bool
  | c :: _ => c.isDigit || c == '.'
  | [] => false

def readMagnitude? : List Char → Option Number
  | '0' :: 'x' :: body | '0' :: 'X' :: body => (readHex? body).map Number.ofNat
  | body => if startsDecimal body then (readFloat? body).filter Number.isFinite else none

def readBody? (negative : Bool) (body : List Char) : Option Number :=
  (readMagnitude? body).map fun x => if negative then -x else x

def read? (literal : List Char) : Option Number :=
  let (negative, body) := splitSign literal
  readBody? negative body

end StackMachine.Literal

namespace StackMachine

def Number.ofLiteral? (literal : String) : Option Number := Literal.read? literal.toList

end StackMachine
