import ContentSchema.Number.Decimal.Basic
import ContentSchema.Number.Integer

/-!
# Exact decimal numbers in text

An optional sign and digits with at most one point; underscores may stand after the first digit.
Where a digit no longer fits, because the scale or the coefficient is used up, that digit alone
decides the rounding of the ones before it, and nothing but digits and underscores may follow. A
text that is not of this form but holds an `e` is read as such a number times a power of ten.
-/
namespace ContentSchema.Decimal

/-- Why a text is not a decimal. -/
inductive ReadError where
  /-- There is nothing to read. -/
  | empty
  /-- The text ends before the first digit. -/
  | noDigits
  /-- A character has no place in a decimal. -/
  | unknownCharacter
  /-- A second point. -/
  | twoPoints
  /-- An underscore in front of the first digit. -/
  | leadingUnderscore
  /-- The integer part does not fit into the coefficient. -/
  | tooManyDigits
  /-- Rounding up an integer leaves the coefficient's range. -/
  | roundedTooLarge
  /-- The exponent is not a number. -/
  | badExponent
  /-- The exponent is further from zero than any scale. -/
  | exponentTooLarge (exponent : Nat)
  /-- The number times its power of ten does not fit into the coefficient. -/
  | tooLarge
deriving Repr, DecidableEq

/-- The text of the error. -/
def ReadError.message : ReadError → String
  | .empty => "Invalid decimal: empty"
  | .noDigits => "Invalid decimal: no digits found"
  | .unknownCharacter => "Invalid decimal: unknown character"
  | .twoPoints => "Invalid decimal: two decimal points"
  | .leadingUnderscore => "Invalid decimal: must start lead with a number"
  | .tooManyDigits => "Invalid decimal: overflow from too many digits"
  | .roundedTooLarge => "Invalid decimal: overflow from mantissa after rounding"
  | .badExponent => "Failed to parse"
  | .exponentTooLarge exponent =>
    s!"Scale exceeds the maximum precision allowed: {exponent} > {maxScale}"
  | .tooLarge => "Number exceeds maximum value that can be represented."

/-- What has been read of a number. -/
structure Progress where
  /-- The sign. -/
  negative : Bool
  /-- The digits so far. -/
  coefficient : Nat := 0
  /-- How many of them follow the point. -/
  scale : Nat := 0
  /-- Whether a digit has been read. -/
  hasDigits : Bool := false
  /-- Whether the point has been read. -/
  hasPoint : Bool := false

/-- The error for a character that cannot be used where it stands. -/
def misplaced (c : Char) : ReadError :=
  if c == '.' then .twoPoints else if c == '_' then .leadingUnderscore else .unknownCharacter

/-- The number read, when the text ends. -/
def Progress.finish (p : Progress) : Except ReadError Decimal :=
  if !p.hasDigits then .error .noDigits
  else match ofParts? (if p.negative then -p.coefficient else p.coefficient) p.scale with
    | some d => .ok d
    | none => .error .tooManyDigits

/-- The number read, rounded by a digit that no longer fits: five or more rounds up. If rounding up
uses up the coefficient, the last place is rounded away too. -/
def Progress.round (p : Progress) (digit : Nat) : Except ReadError Decimal :=
  if digit < 5 then p.finish
  else
    let up := p.coefficient + 1
    if up < coefficientBound then { p with coefficient := up }.finish
    else if p.scale = 0 then .error .roundedTooLarge
    else { p with coefficient := (up + 4) / 10, scale := p.scale - 1 }.finish

/-- Whether the digits in front of the last one already come near to filling a word of 64 bits. -/
def Progress.isLong (p : Progress) : Bool := 0xFFFFFFFFFFFFFFFF / 10 - 255 ≤ p.coefficient / 10

/-- The number read, when what follows no longer fits into it. The next digit rounds the number. In
a long number underscores may stand in front of that digit; in a short one an underscore takes its
place, as a zero. What follows is looked at only if the rounded number fits. -/
def Progress.cut (p : Progress) (cs : List Char) : Except ReadError Decimal := do
  let rounded ←
    match if p.isLong then cs.dropWhile (· == '_') else cs with
    | [] => p.finish
    | c :: _ => p.round (if c.isDigit then c.toNat - 48 else 0)
  match cs.find? fun c => !c.isDigit && c != '_' with
  | none => .ok rounded
  | some c => .error (misplaced c)

/-- Reads the rest of a number. -/
def Progress.read (p : Progress) : List Char → Except ReadError Decimal
  | [] => p.finish
  | c :: cs =>
    if p.hasPoint && p.hasDigits && maxScale ≤ p.scale then p.cut (c :: cs)
    else if c.isDigit then
      let next := p.coefficient * 10 + (c.toNat - 48)
      if next < coefficientBound then
        { p with
            coefficient := next, hasDigits := true
            scale := if p.hasPoint then p.scale + 1 else 0 }.read cs
      else if p.hasPoint then p.cut (c :: cs)
      else .error .tooManyDigits
    else if c == '.' && !p.hasPoint then { p with hasPoint := true }.read cs
    else if c == '_' && p.hasDigits then p.read cs
    else .error (misplaced c)

/-- Reads a number without an exponent. -/
def readPlain : List Char → Except ReadError Decimal
  | [] => .error .empty
  | '-' :: cs => { negative := true : Progress }.read cs
  | '+' :: cs => { negative := false : Progress }.read cs
  | cs => { negative := false : Progress }.read cs

/-- The number times ten to the given power, or its negative: the scale takes up what it can; beyond
it the result is rounded to the greatest scale, or is an integer of scale zero. -/
def timesPowerOfTen (d : Decimal) (negative : Bool) (n : Nat) : Except ReadError Decimal :=
  if maxScale < n then .error (.exponentTooLarge n)
  else if negative then .ok (d.divPowerOfTen n)
  else if n ≤ d.scale then
    (ofParts? d.coefficient (d.scale - n)).elim (.error .tooLarge) .ok
  else
    (ofParts? (d.coefficient * Nat.pow 10 (n - d.scale)) 0).elim (.error .tooLarge) .ok

/-- Reads a number that is followed by `e` and a power of ten. -/
def readScientific (cs : List Char) : Except ReadError Decimal := do
  let isMark (c : Char) := c == 'e' || c == 'E'
  let base ← readPlain (cs.takeWhile (!isMark ·))
  let (negative, exponent) := match (cs.dropWhile (!isMark ·)).drop 1 with
    | '-' :: e => (true, e)
    | e => (false, e)
  match readWord32 10 exponent with
  | .ok n => timesPowerOfTen base negative n
  | .error _ => .error .badExponent

/-- Reads a decimal. -/
def read (s : String) : Except ReadError Decimal :=
  match readPlain s.toList with
  | .ok d => .ok d
  | .error e =>
    if s.toList.any fun c => c == 'e' || c == 'E' then readScientific s.toList else .error e

end ContentSchema.Decimal
