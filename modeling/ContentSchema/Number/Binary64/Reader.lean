import ContentSchema.Number.Binary64.Basic

/-!
# Floating point numbers in text

An optional sign, then `inf`, `infinity` or `nan` in any case, or decimal digits with an optional
point and an optional exponent. The number read is the nearest one to the decimal.
-/
namespace ContentSchema.Binary64

/-- Why a text is not a floating point number. -/
inductive ReadError where
  /-- There is nothing to read. -/
  | empty
  /-- The text does not follow the grammar. -/
  | invalid
deriving Repr, DecidableEq

/-- The text of the error. -/
def ReadError.message : ReadError → String
  | .empty => "cannot parse float from empty string"
  | .invalid => "invalid float literal"

/-- The number that a list of decimal digits stands for, after `acc`. -/
def digitsValue (acc : Nat) (cs : List Char) : Nat :=
  cs.foldl (fun n c => n * 10 + (c.toNat - 48)) acc

/-- An optional sign and the rest. -/
def splitSign : List Char → Bool × List Char
  | '-' :: cs => (true, cs)
  | '+' :: cs => (false, cs)
  | cs => (false, cs)

/-- The exponent that follows the digits: nothing, or `e`, an optional sign and digits. -/
def readExponent? : List Char → Option Int
  | [] => some 0
  | c :: cs =>
    if c == 'e' || c == 'E' then
      let (negative, digits) := splitSign cs
      if digits.isEmpty || !digits.all Char.isDigit then none
      else
        let n := digitsValue 0 digits
        some (if negative then -n else n)
    else none

/-- The number nearest to `d * 10 ^ e`. Beyond 400 digits before the point the result is an
infinity, and beyond 400 zeros after it a zero, so that no large power is computed. -/
def ofDecimal (negative : Bool) (d : Nat) (e : Int) : Binary64 :=
  let length : Int := (Nat.toDigits 10 d).length
  if d = 0 then ofMagnitude negative 0
  else if 400 < length + e then infinity negative
  else if length + e < -400 then ofMagnitude negative 0
  else if 0 ≤ e then ofRatio negative (d * Nat.pow 10 e.toNat) 1
  else ofRatio negative d (Nat.pow 10 (-e).toNat)

/-- Reads an unsigned number. -/
def readUnsigned? (negative : Bool) (cs : List Char) : Option Binary64 :=
  let whole := cs.takeWhile Char.isDigit
  let afterWhole := cs.dropWhile Char.isDigit
  let (fraction, rest) := match afterWhole with
    | '.' :: tail => (tail.takeWhile Char.isDigit, tail.dropWhile Char.isDigit)
    | rest => ([], rest)
  if whole.isEmpty && fraction.isEmpty then none
  else
    (readExponent? rest).map fun e =>
      ofDecimal negative (digitsValue (digitsValue 0 whole) fraction) (e - fraction.length)

/-- Reads a floating point number. -/
def read (s : String) : Except ReadError Binary64 :=
  if s.isEmpty then .error .empty
  else
    let (negative, cs) := splitSign s.toList
    let name := cs.map Char.toLower
    if name == "inf".toList || name == "infinity".toList then .ok (infinity negative)
    else if name == "nan".toList then .ok (nan negative)
    else match readUnsigned? negative cs with
      | some x => .ok x
      | none => .error .invalid

end ContentSchema.Binary64
