import ContentSchema.Calendar.Basic
import ContentSchema.Number.Integer
import ContentSchema.Text.Space

/-!
# Dates and times in text

A date is written year, month and day with hyphens between, a time is added after a blank with
colons, and the part of the second below it, if any, after a point in millionths. Reading is
looser: it follows the same parts, but takes numbers of fewer digits, white space in front of each
number, and up to nine decimals of the second.
-/
namespace ContentSchema.Calendar

/-! ## Writing -/

/-- A year: four digits, and a sign in front of them outside the years 0 to 9999. -/
def yearText (year : Int) : List Char :=
  if 0 ≤ year ∧ year ≤ 9999 then paddedDigits 10 4 year.natAbs
  else (if year < 0 then '-' else '+') :: paddedDigits 10 4 year.natAbs

/-- The text of a day. -/
def dateChars (d : Date) : List Char :=
  yearText d.year ++ '-' :: paddedDigits 10 2 d.month ++ '-' :: paddedDigits 10 2 d.day

/-- The text of a time, to the second; a leap second counts as the sixtieth. -/
def secondsChars (t : Datetime) : List Char :=
  dateChars t.date ++ ' ' :: paddedDigits 10 2 t.hour ++ ':' :: paddedDigits 10 2 t.minute ++
    ':' :: paddedDigits 10 2 (t.second + t.nanos / 1000000000)

/-- The text of a time, with its millionths of a second if there are any. -/
def datetimeChars (t : Datetime) : List Char :=
  let micros := t.nanos / 1000
  secondsChars t ++ if micros = 0 then [] else '.' :: paddedDigits 10 6 micros

/-- The text of a day, `2024-02-29`. -/
def dateText (d : Date) : String := String.ofList (dateChars d)

/-- The text of a time, `2024-02-29 13:05:09.250000`. -/
def datetimeText (t : Datetime) : String := String.ofList (datetimeChars t)

/-! ## Reading -/

/-- Why a text is not a date or time. -/
inductive ReadError where
  /-- The text ends where a number or a mark is needed. -/
  | tooShort
  /-- Another character stands where a number or a mark is needed. -/
  | invalid
  /-- A number is outside its range, or there is no such day. -/
  | outOfRange
  /-- Something follows the last part. -/
  | tooLong
deriving Repr, DecidableEq

/-- The text of the error. -/
def ReadError.message : ReadError → String
  | .tooShort => "premature end of input"
  | .invalid => "input contains invalid characters"
  | .outOfRange => "input is out of range"
  | .tooLong => "trailing input"

/-- Reads the digits that follow, at most `width` of them, and stops at another character. -/
def readDigits (acc : Nat) : Nat → List Char → Except ReadError (Nat × List Char)
  | 0, cs => .ok (acc, cs)
  | _, [] => .ok (acc, [])
  | width + 1, c :: cs =>
    if c.isDigit then
      let n := acc * 10 + (c.toNat - 48)
      if n < int64Bound then readDigits n width cs else .error .outOfRange
    else .ok (acc, c :: cs)

/-- Reads a number of one to `width` digits. -/
def readNumber (width : Nat) : List Char → Except ReadError (Nat × List Char)
  | [] => .error .tooShort
  | c :: cs => if c.isDigit then readDigits 0 width (c :: cs) else .error .invalid

/-- Reads white space and a number of one to `width` digits between `low` and `high`. -/
def readPart (width low high : Nat) (cs : List Char) : Except ReadError (Nat × List Char) := do
  let (n, rest) ← readNumber width (Text.trimStart cs)
  if low ≤ n ∧ n ≤ high then .ok (n, rest) else .error .outOfRange

/-- Reads a year: up to four digits, or a sign and any number of digits. It has to fit into 32
bits. -/
def readYear (cs : List Char) : Except ReadError (Int × List Char) := do
  let cs := Text.trimStart cs
  let (year, rest) ← match cs with
    | '-' :: tail => do
      let (n, rest) ← readNumber tail.length tail
      pure (-(n : Int), rest)
    | '+' :: tail => do
      let (n, rest) ← readNumber tail.length tail
      pure ((n : Int), rest)
    | _ => do
      let (n, rest) ← readNumber 4 cs
      pure ((n : Int), rest)
  if -0x80000000 ≤ year ∧ year < 0x80000000 then .ok (year, rest) else .error .outOfRange

/-- Reads the mark between two parts. -/
def readMark (mark : Char) : List Char → Except ReadError (List Char)
  | [] => .error .tooShort
  | c :: cs => if c == mark then .ok cs else .error .invalid

/-- A day as read, not yet known to exist. -/
abbrev RawDate := Int × Nat × Nat

/-- Reads year, month and day. -/
def readRawDate (cs : List Char) : Except ReadError (RawDate × List Char) := do
  let (year, cs) ← readYear cs
  let cs ← readMark '-' cs
  let (month, cs) ← readPart 2 1 12 cs
  let cs ← readMark '-' cs
  let (day, cs) ← readPart 2 1 31 cs
  return ((year, month, day), cs)

/-- Reads the decimals of a second, in billionths; there are none without a point, and digits after
the ninth are dropped. -/
def readFraction : List Char → Except ReadError (Nat × List Char)
  | '.' :: cs => do
    let (n, rest) ← readNumber 9 cs
    let digits := cs.length - rest.length
    return (n * Nat.pow 10 (9 - digits), rest.dropWhile Char.isDigit)
  | cs => .ok (0, cs)

/-- The day with the parts that were read. -/
def resolveDate : RawDate → Except ReadError Date
  | (year, month, day) => (Date.ofParts? year month day).elim (.error .outOfRange) .ok

/-- Reads a date. -/
def readDate (s : String) : Except ReadError Date := do
  let (raw, rest) ← readRawDate s.toList
  if rest.isEmpty then resolveDate raw else .error .tooLong

/-- Reads a time. Second 60 is a leap second. -/
def readDatetime (s : String) : Except ReadError Datetime := do
  let (raw, cs) ← readRawDate s.toList
  let (hour, cs) ← readPart 2 0 23 (Text.trimStart cs)
  let cs ← readMark ':' cs
  let (minute, cs) ← readPart 2 0 59 cs
  let cs ← readMark ':' cs
  let (second, cs) ← readPart 2 0 60 cs
  let (fraction, rest) ← readFraction cs
  if !rest.isEmpty then .error .tooLong
  else
    let date ← resolveDate raw
    let nanos := if second = 60 then 1000000000 + fraction else fraction
    (Datetime.ofParts? date hour minute (min second 59) nanos).elim (.error .outOfRange) .ok

end ContentSchema.Calendar
