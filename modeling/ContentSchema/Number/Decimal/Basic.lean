/-!
# Exact decimal numbers

A coefficient of at most 96 bits and a scale of at most 28 decimal places. The scale is part of the
number's text but not of its value: `1.0` and `1.00` compare as equal.
-/
namespace ContentSchema

/-- The bound of the absolute values of coefficients, which take 96 bits. -/
def Decimal.coefficientBound : Nat := 0x1000000000000000000000000

/-- The greatest scale. -/
def Decimal.maxScale : Nat := 28

/-- The number `coefficient / 10 ^ scale`. -/
structure Decimal where
  /-- The digits, as an integer with the sign of the number. -/
  coefficient : Int
  /-- The number of decimal places. -/
  scale : Nat
  /-- The digits fit into 96 bits. -/
  coefficient_lt : coefficient.natAbs < Decimal.coefficientBound
  /-- At most 28 of the digits are decimal places. -/
  scale_le : scale ≤ Decimal.maxScale
deriving DecidableEq, Repr

namespace Decimal

/-- The number with the given coefficient and scale, if they are within their bounds. -/
def ofParts? (coefficient : Int) (scale : Nat) : Option Decimal :=
  if h : coefficient.natAbs < coefficientBound ∧ scale ≤ maxScale then
    some ⟨coefficient, scale, h.1, h.2⟩
  else none

instance : Inhabited Decimal := ⟨⟨0, 0, by decide, by decide⟩⟩

/-- The order of the values; the scale does not count. -/
def compare (a b : Decimal) : Ordering :=
  Ord.compare (a.coefficient * Nat.pow 10 b.scale) (b.coefficient * Nat.pow 10 a.scale)

/-- The quotient of a count by a power of ten, rounded to the nearest count; a half goes up. -/
def roundedQuotient (a e : Nat) : Nat := (a + Nat.pow 10 e / 2) / Nat.pow 10 e

theorem roundedQuotient_le (a e : Nat) : roundedQuotient a e ≤ a := by
  have pos : 0 < Nat.pow 10 e := Nat.pow_pos (by decide)
  have le : a ≤ Nat.pow 10 e * a := Nat.le_mul_of_pos_left a pos
  refine Nat.le_of_lt_succ (Nat.div_lt_of_lt_mul ?_)
  rw [Nat.mul_succ]
  omega

/-- The number divided by a power of ten. The scale grows as far as it can; the places beyond it
are rounded away, and a half goes away from zero. -/
def divPowerOfTen (a : Decimal) (n : Nat) : Decimal :=
  let digits := roundedQuotient a.coefficient.natAbs (a.scale + n - maxScale)
  { coefficient := if a.coefficient < 0 then -digits else digits
    scale := min (a.scale + n) maxScale
    coefficient_lt := by
      have := roundedQuotient_le a.coefficient.natAbs (a.scale + n - maxScale)
      have := a.coefficient_lt
      split <;> omega
    scale_le := Nat.min_le_right _ _ }

/-- The text of a decimal: every place of its scale is written, and at least one digit stands in
front of the point. -/
def text (a : Decimal) : String :=
  let digits := Nat.toDigits 10 a.coefficient.natAbs
  let padded := List.replicate (a.scale + 1 - digits.length) '0' ++ digits
  let body :=
    if a.scale = 0 then padded
    else padded.take (padded.length - a.scale) ++ '.' :: padded.drop (padded.length - a.scale)
  String.ofList (if a.coefficient < 0 then '-' :: body else body)

end Decimal
end ContentSchema
