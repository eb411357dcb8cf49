import StackMachine.Number.Basic

namespace StackMachine

structure Decimal where
  digits : Nat
  exponent : Int
deriving DecidableEq

namespace Decimal

def vanishes (d : Decimal) : Bool := (d.digits.log2 : Int) + 1100 < -3 * d.exponent

/--
Magnitude of the number nearest to a decimal. Every decimal from `10 ^ 400` on is infinite, so larger
exponents need not be told apart.
-/
def magnitude (d : Decimal) : Nat :=
  if d.vanishes then 0
  else Number.roundMagnitude (d.digits * Nat.pow 10 (min d.exponent.toNat 400) * Number.unitsPerOne)
    (Nat.pow 10 (-d.exponent).toNat)

theorem magnitude_le (d : Decimal) : d.magnitude ≤ Number.infinityMagnitude := by
  unfold magnitude
  split
  · exact Nat.zero_le _
  · exact Number.roundMagnitude_le _ _

def toNumber (negative : Bool) (d : Decimal) : Number :=
  ⟨negative, d.magnitude, Nat.lt_of_le_of_lt d.magnitude_le Number.infinityMagnitude_lt⟩

end Decimal

inductive Tie where
  | up
  | even

def Tie.goesUp (tie : Tie) (floor part whole : Nat) : Bool :=
  whole < 2 * part || (whole == 2 * part && match tie with
    | .up => true
    | .even => floor % 2 == 1)

namespace Decimal

def onGrid? (tie : Tie) (magnitude : Nat) (exponent : Int) : Option Decimal :=
  let num := Number.magnitudeUnits magnitude * Nat.pow 10 (-exponent).toNat
  let den := Number.unitsPerOne * Nat.pow 10 exponent.toNat
  let below : Decimal := ⟨num / den, exponent⟩
  let above : Decimal := ⟨num / den + 1, exponent⟩
  match below.magnitude == magnitude, above.magnitude == magnitude with
  | false, false => none
  | true, false => some below
  | false, true => some above
  | true, true => some (if tie.goesUp (num / den) (num % den) den then above else below)

/-- A power of ten that is above the magnitude; `30103 / 100000` stands for the logarithm of two. -/
def topExponent (magnitude : Nat) : Int :=
  ((Number.magnitudeUnits magnitude).log2 - 1073 : Int) * 30103 / 100000 + 1

def exact (magnitude : Nat) : Decimal := ⟨Number.magnitudeUnits magnitude * Nat.pow 5 1074, -1074⟩

/--
The shortest decimal that rounds to a finite magnitude. Seventeen digits always suffice, so the search
through the grids from coarse to fine ends within twenty of them.
-/
def shortest (tie : Tie) (magnitude : Nat) : Decimal :=
  if magnitude = 0 then ⟨0, 0⟩
  else
    let top := topExponent magnitude
    ((List.range 20).findSome? fun i : Nat => onGrid? tie magnitude (top - i)).getD (exact magnitude)

end Decimal

end StackMachine
