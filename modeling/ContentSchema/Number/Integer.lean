/-!
# Integers in text

Decimal and hexadecimal numerals with bounds. A numeral is read from the left, and the first
character that is no digit, or that takes the number out of its bounds, decides the error.
-/
namespace ContentSchema

/-- Why a text is not an integer. -/
inductive IntegerError where
  /-- There is nothing to read. -/
  | empty
  /-- A character is not a digit, or a sign stands alone. -/
  | invalidDigit
  /-- The number lies above the greatest one allowed. -/
  | tooLarge
  /-- The number lies below the least one allowed. -/
  | tooSmall
deriving Repr, DecidableEq

/-- The text of the error. -/
def IntegerError.message : IntegerError → String
  | .empty => "cannot parse integer from empty string"
  | .invalidDigit => "invalid digit found in string"
  | .tooLarge => "number too large to fit in target type"
  | .tooSmall => "number too small to fit in target type"

/-- The value of an ASCII digit or letter as a digit in a radix of at most 36. -/
def digitValue? (radix : Nat) (c : Char) : Option Nat :=
  let n := c.toNat
  let v? :=
    if 48 ≤ n ∧ n ≤ 57 then some (n - 48)
    else if 97 ≤ n ∧ n ≤ 122 then some (n - 87)
    else if 65 ≤ n ∧ n ≤ 90 then some (n - 55)
    else none
  v?.filter (· < radix)

/-- Continues the number `acc` with further digits; past `limit` it fails with `beyond`. -/
def readDigits (radix limit : Nat) (beyond : IntegerError) (acc : Nat) :
    List Char → Except IntegerError Nat
  | [] => .ok acc
  | c :: cs =>
    match digitValue? radix c with
    | none => .error .invalidDigit
    | some d =>
      if limit < acc * radix + d then .error beyond
      else readDigits radix limit beyond (acc * radix + d) cs

/-- The bound of the absolute values of signed 64-bit integers. -/
def int64Bound : Nat := 0x8000000000000000

/-- The bound of the unsigned 32-bit integers. -/
def word32Bound : Nat := 0x100000000

/-- Reads a signed 64-bit integer: at most one sign, then decimal digits. -/
def readInt64 (s : String) : Except IntegerError Int64 :=
  match s.toList with
  | [] => .error .empty
  | ['+'] | ['-'] => .error .invalidDigit
  | '-' :: cs => do
    let n ← readDigits 10 int64Bound .tooSmall 0 cs
    return Int64.ofInt (-n)
  | '+' :: cs => do
    let n ← readDigits 10 (int64Bound - 1) .tooLarge 0 cs
    return Int64.ofInt n
  | cs => do
    let n ← readDigits 10 (int64Bound - 1) .tooLarge 0 cs
    return Int64.ofInt n

/-- Reads an unsigned 32-bit integer in the given radix; a plus sign may stand in front. -/
def readWord32 (radix : Nat) (cs : List Char) : Except IntegerError Nat :=
  match cs with
  | [] => .error .empty
  | ['+'] | ['-'] => .error .invalidDigit
  | '+' :: cs => readDigits radix (word32Bound - 1) .tooLarge 0 cs
  | cs => readDigits radix (word32Bound - 1) .tooLarge 0 cs

/-- The decimal text of a 64-bit integer: a minus sign below zero, and no leading zeros. -/
def int64Text (n : Int64) : String :=
  let digits := Nat.toDigits 10 n.toInt.natAbs
  String.ofList (if n.toInt < 0 then '-' :: digits else digits)

/-- The digits of a number in a radix, with zeros in front up to the given width. -/
def paddedDigits (radix width n : Nat) : List Char :=
  let digits := Nat.toDigits radix n
  List.replicate (width - digits.length) '0' ++ digits

end ContentSchema
