import StackMachine.Number.Basic

namespace StackMachine.Number

def neg (x : Number) : Number := { x with negative := !x.negative }

/-- A sum that cancels is `-0` only for two negative zeros. -/
def add (a b : Number) : Number :=
  if a.isNaN || b.isNaN then nan
  else if a.isInfinite then
    if b.isInfinite && a.negative != b.negative then nan else a
  else if b.isInfinite then b
  else
    let sum := a.units + b.units
    if sum = 0 then signedZero (a.negative && b.negative)
    else ofRatio (sum < 0) sum.natAbs 1

def sub (a b : Number) : Number := a.add b.neg

def mul (a b : Number) : Number :=
  let negative := a.negative != b.negative
  if a.isNaN || b.isNaN then nan
  else if a.isInfinite || b.isInfinite then
    if a.isZero || b.isZero then nan else infinity negative
  else ofRatio negative (a.absUnits * b.absUnits) unitsPerOne

def div (a b : Number) : Number :=
  let negative := a.negative != b.negative
  if a.isNaN || b.isNaN then nan
  else if a.isInfinite then
    if b.isInfinite then nan else infinity negative
  else if b.isInfinite then signedZero negative
  else if b.isZero then
    if a.isZero then nan else infinity negative
  else ofRatio negative (a.absUnits * unitsPerOne) b.absUnits

def rem (a b : Number) : Number :=
  if !a.isFinite || b.isNaN || b.isZero then nan
  else if b.isInfinite then a
  else ofRatio a.negative (a.absUnits % b.absUnits) 1

instance : Neg Number := ⟨neg⟩

instance : Add Number := ⟨add⟩

instance : Sub Number := ⟨sub⟩

instance : Mul Number := ⟨mul⟩

instance : Div Number := ⟨div⟩

instance : Mod Number := ⟨rem⟩

end StackMachine.Number

namespace StackMachine.Number

def isIntegral (x : Number) : Bool := x.isFinite && x.absUnits % unitsPerOne == 0

def indexCount : Nat := 0x10000000000000000

def toIndex? (x : Number) : Option Nat :=
  let n := x.absUnits / unitsPerOne
  if x.isIntegral && (!x.negative || x.isZero) && n < indexCount then some n else none

def truncate (x : Number) : Int := x.units.tdiv unitsPerOne

def wholePart (x : Number) : Number :=
  if x.isFinite then ofRatio x.negative (x.truncate.natAbs * unitsPerOne) 1 else x

def abs (x : Number) : Number := { x with negative := false }

def euclideanRem (a b : Number) : Number :=
  let r := a % b
  if r.less zero then r + b.abs else r

def toWord (x : Number) : UInt64 :=
  if x.isNaN || x.negative then 0 else UInt64.ofNat (min (x.absUnits / unitsPerOne) (indexCount - 1))

def int32Count : Nat := 0x100000000

def toInt32 (x : Number) : Int32 :=
  if x.isFinite then (x.wholePart.euclideanRem (ofNat int32Count)).toWord.toUInt32.toInt32 else 0

def ofInt32 (n : Int32) : Number := ofInt n.toInt

def bitNot (a : Number) : Number := ofInt32 (~~~a.toInt32)

def bitAnd (a b : Number) : Number := ofInt32 (a.toInt32 &&& b.toInt32)

def bitOr (a b : Number) : Number := ofInt32 (a.toInt32 ||| b.toInt32)

end StackMachine.Number
