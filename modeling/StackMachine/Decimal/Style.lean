import StackMachine.Decimal.Basic

namespace StackMachine

structure Style where
  tie : Tie
  /-- The decimal exponents of the first digit that are written positionally. -/
  positional : Int → Bool
  wholeMark : List Char
  exponentMark : List Char
  nan : String
  infinity : String
  negativeInfinity : String

namespace Style

def positionalText (style : Style) (digits : List Char) (exponent : Int) : List Char :=
  let point := digits.length + exponent
  if 0 ≤ exponent then digits ++ List.replicate exponent.toNat '0' ++ style.wholeMark
  else if 0 < point then digits.take point.toNat ++ '.' :: digits.drop point.toNat
  else '0' :: '.' :: (List.replicate (-point).toNat '0' ++ digits)

def exponentText (style : Style) (exponent : Int) : List Char :=
  let sign := if exponent < 0 then ['-'] else style.exponentMark
  'e' :: (sign ++ Nat.toDigits 10 exponent.natAbs)

def scientificText (style : Style) (digits : List Char) (exponent : Int) : List Char :=
  let fraction := digits.drop 1
  digits.take 1 ++ (if fraction.isEmpty then [] else '.' :: fraction)
    ++ style.exponentText (exponent + fraction.length)

def magnitudeText (style : Style) (magnitude : Nat) : List Char :=
  let decimal := Decimal.shortest style.tie magnitude
  let digits := Nat.toDigits 10 decimal.digits
  if style.positional (decimal.exponent + digits.length - 1) then
    style.positionalText digits decimal.exponent
  else style.scientificText digits decimal.exponent

def write (style : Style) (x : Number) : String :=
  if x.isNaN then style.nan
  else if x.isInfinite then
    if x.negative then style.negativeInfinity else style.infinity
  else
    let text := style.magnitudeText x.magnitude
    String.ofList (if x.negative then '-' :: text else text)

def plain : Style where
  tie := .up
  positional _ := true
  wholeMark := []
  exponentMark := []
  nan := "NaN"
  infinity := "Infinity"
  negativeInfinity := "-Infinity"

def json : Style where
  tie := .even
  positional e := -5 ≤ e && e ≤ 15
  wholeMark := ['.', '0']
  exponentMark := ['+']
  nan := "null"
  infinity := "null"
  negativeInfinity := "null"

def inspection : Style where
  tie := .up
  positional e := -4 ≤ e && e < 16
  wholeMark := ['.', '0']
  exponentMark := []
  nan := "NaN"
  infinity := "inf"
  negativeInfinity := "-inf"

end Style

namespace Number

def text (x : Number) : String := Style.plain.write x

def json (x : Number) : String := Style.json.write x

def inspect (x : Number) : String := "Number(" ++ Style.inspection.write x ++ ")"

end Number

end StackMachine
