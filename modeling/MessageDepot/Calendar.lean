/-!
# Calendar time

Instants are milliseconds since the start of 1970, shown in the proleptic Gregorian calendar
in UTC with astronomical years. Days are counted in cycles of 400 years of 146097 days that
start on the first of March, so that a leap day is the last day of its year.
-/
namespace MessageDepot

/-- A date and a time of day. -/
structure DateTime where
  year : Int
  month : Nat
  day : Nat
  hour : Nat
  minute : Nat
  second : Nat
  millisecond : Nat
  deriving DecidableEq, Repr

namespace Calendar

def isLeapYear (year : Int) : Bool := year % 4 = 0 && (year % 100 ≠ 0 || year % 400 = 0)

/-- The number of days of a month; 0 for a number that is no month. -/
def daysInMonth (year : Int) (month : Nat) : Nat :=
  if month = 2 then (if isLeapYear year then 29 else 28)
  else if month = 4 ∨ month = 6 ∨ month = 9 ∨ month = 11 then 30
  else if 1 ≤ month ∧ month ≤ 12 then 31
  else 0

/-- Days from the first of March of year 0 to the start of 1970. -/
def epochDay : Int := 719468

def daysPerCycle : Nat := 146097

def millisPerDay : Int := 86400000

/-- Splits a day of a cycle into a year of the cycle and a day of that year. -/
def yearOfCycle (d : Nat) : Nat × Nat :=
  let century := min 3 (d / 36524)
  let d := d - 36524 * century
  let quad := d / 1461
  let d := d - 1461 * quad
  let year := min 3 (d / 365)
  (100 * century + 4 * quad + year, d - 365 * year)

/-- The days of a cycle before one of its years. -/
def daysBeforeYear (y : Nat) : Nat := 365 * y + y / 4 - y / 100

/-- The days of a year, from the first of March, before its month number `m` from March. -/
def daysBeforeMonth (m : Nat) : Nat := (153 * m + 2) / 5

/-- The month, counted from March, that a day of the year falls in. -/
def monthOfYear (d : Nat) : Nat := (5 * d + 2) / 153

/-- Year, month and day of a day counted from the start of 1970. -/
def civil (day : Int) : Int × Nat × Nat :=
  let z := day + epochDay
  let (y, d) := yearOfCycle (z % daysPerCycle).toNat
  let m := monthOfYear d
  let month := if m < 10 then m + 3 else m - 9
  (z / daysPerCycle * 400 + y + (if month ≤ 2 then 1 else 0), month, d - daysBeforeMonth m + 1)

/-- The day, counted from the start of 1970, of a date. -/
def dayOf (year : Int) (month day : Nat) : Int :=
  let y := if month ≤ 2 then year - 1 else year
  let d := daysBeforeYear (y % 400).toNat + daysBeforeMonth ((month + 9) % 12) + day - 1
  y / 400 * daysPerCycle + d - epochDay

/-- The first instant of year -262143. -/
def earliest : Int := -8334601228800000

/-- The last instant of year 262142. -/
def latest : Int := 8210266876799999

end Calendar

namespace DateTime

open Calendar

/-- The calendar time of an instant. -/
def ofMillis (t : Int) : DateTime :=
  let (year, month, day) := civil (t / millisPerDay)
  let r := (t % millisPerDay).toNat
  ⟨year, month, day, r / 3600000, r / 60000 % 60, r / 1000 % 60, r % 1000⟩

/-- The calendar time of an instant within the years that the calendar covers
(`timestamp_millis_opt`). -/
def ofMillis? (t : Int) : Option DateTime :=
  if earliest ≤ t ∧ t ≤ latest then some (ofMillis t) else none

/-- The instant of a calendar time. -/
def toMillis (d : DateTime) : Int :=
  dayOf d.year d.month d.day * millisPerDay
    + (d.hour * 3600000 + d.minute * 60000 + d.second * 1000 + d.millisecond)

/-- A time that a clock and a calendar can show. -/
def IsValid (d : DateTime) : Prop :=
  1 ≤ d.month ∧ d.month ≤ 12 ∧ 1 ≤ d.day ∧ d.day ≤ daysInMonth d.year d.month
    ∧ d.hour < 24 ∧ d.minute < 60 ∧ d.second < 60 ∧ d.millisecond < 1000

/-- Earlier by the first field that differs, from the year down. -/
def Before (a b : DateTime) : Prop :=
  a.year < b.year ∨ a.year = b.year ∧ (a.month < b.month ∨ a.month = b.month ∧
    (a.day < b.day ∨ a.day = b.day ∧ (a.hour < b.hour ∨ a.hour = b.hour ∧
      (a.minute < b.minute ∨ a.minute = b.minute ∧ (a.second < b.second ∨ a.second = b.second ∧
        a.millisecond < b.millisecond)))))

end DateTime

end MessageDepot
