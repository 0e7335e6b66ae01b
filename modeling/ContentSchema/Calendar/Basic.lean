/-!
# Dates and times of day

Days of the proleptic Gregorian calendar and times without a zone. The years run from -262143 to
262142. A leap second is a second whose part is one second or more, so times compare by their second
first. It may follow any second of a minute, as a zone may differ by seconds from the one in which
it ended a minute.
-/
namespace ContentSchema

/-- Whether a year has a 29th of February. -/
def isLeapYear (year : Int) : Bool := year % 4 == 0 && (year % 100 != 0 || year % 400 == 0)

/-- The number of days in a month. -/
def daysInMonth (year : Int) (month : Nat) : Nat :=
  if month == 2 then if isLeapYear year then 29 else 28
  else if month == 4 || month == 6 || month == 9 || month == 11 then 30
  else 31

/-- A day exists when its year is one of the calendar's, its month is one of the twelve and its day
is one of that month's. -/
def DayExists (year : Int) (month day : Nat) : Prop :=
  -262143 ≤ year ∧ year ≤ 262142 ∧ 1 ≤ month ∧ month ≤ 12 ∧ 1 ≤ day ∧ day ≤ daysInMonth year month

instance (year : Int) (month day : Nat) : Decidable (DayExists year month day) :=
  inferInstanceAs (Decidable (_ ∧ _))

/-- A day of the calendar. -/
structure Date where
  /-- The year; there is a year zero. -/
  year : Int
  /-- The month, from one. -/
  month : Nat
  /-- The day of the month, from one. -/
  day : Nat
  /-- The calendar has this day. -/
  dayExists : DayExists year month day
deriving DecidableEq

namespace Date

/-- The day with the given parts, if there is one. -/
def ofParts? (year : Int) (month day : Nat) : Option Date :=
  if h : DayExists year month day then some ⟨year, month, day, h⟩ else none

instance : Inhabited Date := ⟨⟨1970, 1, 1, by decide⟩⟩

/-- The order of days. -/
def compare (a b : Date) : Ordering :=
  (Ord.compare a.year b.year).then ((Ord.compare a.month b.month).then (Ord.compare a.day b.day))

end Date

/-- A time of day exists when its parts are within their ranges; any second may last for two. -/
def TimeExists (hour minute second nanos : Nat) : Prop :=
  hour < 24 ∧ minute < 60 ∧ second < 60 ∧ nanos < 2000000000

instance (hour minute second nanos : Nat) : Decidable (TimeExists hour minute second nanos) :=
  inferInstanceAs (Decidable (_ ∧ _))

/-- A day with a time of day. -/
structure Datetime where
  /-- The day. -/
  date : Date
  /-- The hour. -/
  hour : Nat
  /-- The minute. -/
  minute : Nat
  /-- The second; during a leap second the one before it. -/
  second : Nat
  /-- The part of the second, in billionths; a leap second goes on beyond a billion. -/
  nanos : Nat
  /-- A day has this time. -/
  timeExists : TimeExists hour minute second nanos
deriving DecidableEq

namespace Datetime

/-- The time with the given parts, if there is one. -/
def ofParts? (date : Date) (hour minute second nanos : Nat) : Option Datetime :=
  if h : TimeExists hour minute second nanos then some ⟨date, hour, minute, second, nanos, h⟩
  else none

instance : Inhabited Datetime := ⟨⟨default, 0, 0, 0, 0, by decide⟩⟩

/-- The seconds since midnight. -/
def secondOfDay (t : Datetime) : Nat := (t.hour * 60 + t.minute) * 60 + t.second

/-- The order of times. -/
def compare (a b : Datetime) : Ordering :=
  (a.date.compare b.date).then
    ((Ord.compare a.secondOfDay b.secondOfDay).then (Ord.compare a.nanos b.nanos))

end Datetime
end ContentSchema
