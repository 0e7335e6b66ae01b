/-!
# Binary floating point numbers

The 64-bit binary format: a sign bit, 11 exponent bits and 52 fraction bits. Numbers are kept as
their bit patterns and every operation works on those in exact integer arithmetic. Two orders are
defined: `Binary64.totalCompare` tells all bit patterns apart, `Binary64.compare?` compares the
numbers, so that both zeros are equal and a NaN compares with nothing.
-/
namespace ContentSchema

/-- A floating point number, given by its bit pattern. -/
structure Binary64 where
  /-- Sign, exponent and fraction, from the highest bit down. -/
  bits : UInt64
deriving DecidableEq, Repr, Inhabited

namespace Binary64

/-- What the sign bit adds to a bit pattern. -/
def signWeight : Nat := 0x8000000000000000

/-- The bound of the fractions, and what the least exponent adds to a bit pattern. -/
def fractionBound : Nat := 0x10000000000000

/-- Whether the sign bit is set. -/
def isNegative (x : Binary64) : Bool := signWeight ≤ x.bits.toNat

/-- The bit pattern without the sign bit. It grows with the absolute value. -/
def magnitude (x : Binary64) : Nat := x.bits.toNat % signWeight

/-- The magnitude of the infinities; those of NaNs lie above it. -/
def infinityMagnitude : Nat := 2047 * fractionBound

/-- Whether the bits are those of a NaN. -/
def isNaN (x : Binary64) : Bool := infinityMagnitude < x.magnitude

/-- Whether the number is one of the two infinities. -/
def isInfinite (x : Binary64) : Bool := x.magnitude == infinityMagnitude

/-- The number with the given sign and magnitude. -/
def ofMagnitude (negative : Bool) (magnitude : Nat) : Binary64 :=
  ⟨UInt64.ofNat (magnitude + if negative then signWeight else 0)⟩

/-- The infinity with the given sign. -/
def infinity (negative : Bool) : Binary64 := ofMagnitude negative infinityMagnitude

/-- The NaN with only the highest fraction bit set. -/
def nan (negative : Bool) : Binary64 := ofMagnitude negative (infinityMagnitude + fractionBound / 2)

/-! ## Order -/

/-- The place of a bit pattern in the total order: negative patterns come first, from the largest
magnitude down to the negative zero, and the positive ones follow from zero up. -/
def totalKey (x : Binary64) : Int :=
  if x.isNegative then -(x.magnitude : Int) - 1 else x.magnitude

/-- The total order of bit patterns. -/
def totalCompare (x y : Binary64) : Ordering := compare x.totalKey y.totalKey

/-- The place of a number among the numbers: as `totalKey`, but both zeros have the same place. -/
def numericKey (x : Binary64) : Int :=
  if x.isNegative then -(x.magnitude : Int) else x.magnitude

/-- The numeric order; `none` when a NaN takes part. -/
def compare? (x y : Binary64) : Option Ordering :=
  if x.isNaN || y.isNaN then none else some (compare x.numericKey y.numericKey)

/-! ## Value -/

/-- The significand `m` and exponent `e` of a finite number, whose absolute value is `m * 2 ^ e`. -/
def decompose (x : Binary64) : Nat × Int :=
  let exponent : Nat := x.magnitude / fractionBound
  let fraction := x.magnitude % fractionBound
  if exponent = 0 then (fraction, -1074) else (fractionBound + fraction, Int.ofNat exponent - 1075)

/-- The quotient of two natural numbers rounded to the nearest number, a half to the even one. -/
def roundHalfEven (num den : Nat) : Nat :=
  let q := num / den
  let twice := 2 * (num % den)
  if twice < den then q
  else if den < twice then q + 1
  else q + q % 2

/-- The greatest `e` with `2 ^ e ≤ num / den`, for positive arguments. -/
def floorLog2 (num den : Nat) : Int :=
  let guess : Int := (Nat.log2 num : Int) - Nat.log2 den
  -- `num / den` lies between `2 ^ (guess - 1)` and `2 ^ (guess + 1)`
  let reached := if 0 ≤ guess then den * Nat.pow 2 guess.toNat ≤ num
    else den ≤ num * Nat.pow 2 (-guess).toNat
  if reached then guess else guess - 1

/-- The number nearest to the quotient of two natural numbers, `den` being positive; a half goes to
the neighbour with the even significand, and what lies beyond the greatest finite number becomes
an infinity. -/
def ofRatio (negative : Bool) (num den : Nat) : Binary64 :=
  if num = 0 then ofMagnitude negative 0
  else
    -- significands of 53 bits, fewer only at the least exponent
    let e := max (floorLog2 num den - 52) (-1074)
    let m := if 0 ≤ e then roundHalfEven num (den * Nat.pow 2 e.toNat)
      else roundHalfEven (num * Nat.pow 2 (-e).toNat) den
    ofMagnitude negative (min ((e + 1074).toNat * fractionBound + m) infinityMagnitude)

/-- The number nearest to an integer. -/
def ofInt (n : Int) : Binary64 := ofRatio (n < 0) n.natAbs 1

/-- Whether the number is an integer below ten to the sixteenth in absolute value. -/
def isSmallInteger (x : Binary64) : Bool :=
  let (m, e) := x.decompose
  if x.isNaN || x.isInfinite then false
  else if 0 ≤ e then m * Nat.pow 2 e.toNat < 10000000000000000
  else m % Nat.pow 2 (-e).toNat == 0 && m / Nat.pow 2 (-e).toNat < 10000000000000000

/-- The integer part of the absolute value of a finite number. -/
def integerPart (x : Binary64) : Nat :=
  let (m, e) := x.decompose
  if 0 ≤ e then m * Nat.pow 2 e.toNat else m / Nat.pow 2 (-e).toNat

end Binary64
end ContentSchema
