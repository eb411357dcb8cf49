namespace StackMachine

structure Number where
  negative : Bool
  magnitude : Nat
  magnitude_lt : magnitude < 0x8000000000000000
deriving DecidableEq

namespace Number

def signBit : Nat := 0x8000000000000000

/-- How many magnitudes there are from one power of two to the next. -/
def binade : Nat := 0x0010000000000000

def infinityMagnitude : Nat := 0x7FF0000000000000

def nanMagnitude : Nat := 0x7FF8000000000000

theorem infinityMagnitude_lt : infinityMagnitude < 0x8000000000000000 := by decide

theorem nanMagnitude_lt : nanMagnitude < 0x8000000000000000 := by decide

def signedZero (negative : Bool) : Number := ⟨negative, 0, by decide⟩

def zero : Number := signedZero false

def infinity (negative : Bool) : Number := ⟨negative, infinityMagnitude, infinityMagnitude_lt⟩

def nan : Number := ⟨false, nanMagnitude, nanMagnitude_lt⟩

instance : Inhabited Number := ⟨zero⟩

def ofBits (bits : UInt64) : Number :=
  ⟨signBit ≤ bits.toNat, bits.toNat % signBit, Nat.mod_lt _ (by decide)⟩

def toBits (x : Number) : UInt64 :=
  UInt64.ofNat (x.magnitude + if x.negative then signBit else 0)

theorem toBits_ofBits (bits : UInt64) : (ofBits bits).toBits = bits := by
  apply UInt64.toNat_inj.1
  have := bits.toNat_lt
  by_cases h : signBit ≤ bits.toNat <;> simp [toBits, ofBits, h] <;> simp only [signBit] at * <;> omega

theorem ofBits_toBits (x : Number) : ofBits x.toBits = x := by
  obtain ⟨negative, magnitude, h⟩ := x
  cases negative <;> simp [toBits, ofBits, signBit] <;> omega

def isNaN (x : Number) : Bool := infinityMagnitude < x.magnitude

def isInfinite (x : Number) : Bool := x.magnitude == infinityMagnitude

def isFinite (x : Number) : Bool := x.magnitude < infinityMagnitude

def isZero (x : Number) : Bool := x.magnitude == 0

def unitsPerOne : Nat := 1 <<< 1074

/-- Exact value of a finite magnitude, in units of `2 ^ -1074`. -/
def magnitudeUnits (magnitude : Nat) : Nat :=
  let shift := magnitude / binade - 1
  (magnitude - shift * binade) <<< shift

def absUnits (x : Number) : Nat := magnitudeUnits x.magnitude

def units (x : Number) : Int := if x.negative then -(x.absUnits : Int) else x.absUnits

/-- Numbers other than NaN stand in the order of their keys; the two zeros share one. -/
def key (x : Number) : Int := if x.negative then -(x.magnitude : Int) else x.magnitude

def compare? (a b : Number) : Option Ordering :=
  if a.isNaN || b.isNaN then none else some (compare a.key b.key)

def equal (a b : Number) : Bool := a.compare? b == some .eq

def less (a b : Number) : Bool := a.compare? b == some .lt

def greater (a b : Number) : Bool := a.compare? b == some .gt

theorem equal_iff {a b : Number} : a.equal b ↔ a.isNaN = false ∧ b.isNaN = false ∧ a.key = b.key := by
  simp [equal, compare?, and_assoc]

theorem less_iff {a b : Number} : a.less b ↔ a.isNaN = false ∧ b.isNaN = false ∧ a.key < b.key := by
  simp [less, compare?, and_assoc, Int.compare_eq_lt]

theorem greater_iff {a b : Number} :
    a.greater b ↔ a.isNaN = false ∧ b.isNaN = false ∧ b.key < a.key := by
  simp [greater, compare?, and_assoc, Int.compare_eq_gt]

end Number

def roundDiv (num den : Nat) : Nat :=
  let floor := num / den
  let twice := 2 * (num % den)
  if twice < den ∨ (twice = den ∧ floor % 2 = 0) then floor else floor + 1

namespace Number

/--
Magnitude of the number nearest to `num / den` units. A significand rounded up to the next power of two
carries into the exponent field by itself, and whatever is too large is infinite.
-/
def roundMagnitude (num den : Nat) : Nat :=
  let shift := (num / den).log2 - 52
  min infinityMagnitude (shift * binade + roundDiv num (den <<< shift))

theorem roundMagnitude_le (num den : Nat) : roundMagnitude num den ≤ infinityMagnitude :=
  Nat.min_le_left _ _

def ofRatio (negative : Bool) (num den : Nat) : Number :=
  ⟨negative, roundMagnitude num den,
    Nat.lt_of_le_of_lt (roundMagnitude_le num den) infinityMagnitude_lt⟩

def ofInt (n : Int) : Number := ofRatio (n < 0) (n.natAbs * unitsPerOne) 1

def ofNat (n : Nat) : Number := ofRatio false (n * unitsPerOne) 1

end Number

end StackMachine
