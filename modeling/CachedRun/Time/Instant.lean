/-!
# Instants

An instant is a number of seconds since the start of 1970, in UTC, and a fraction in nanoseconds. A
leap second is kept as the second before it with a fraction of a whole second or more, so instants
order by seconds first and fraction second, and a leap second lies between its neighbours.

The calendar is the Gregorian one in both directions of time. `daysOf` counts the days to a date and
`dateOf` goes back; both count years from March, so that the leap day is the last day of its year,
and work in cycles of 400 years, which all have 146097 days.

A program keeps a date in a word, so its calendar has an end. `addSeconds?` is the step to a later
instant as a program takes it, which has no answer beyond that end, and `addSeconds` the step in a
calendar that goes on for ever.
-/

set_option autoImplicit false

namespace CachedRun.Time

/-- A day of the calendar. -/
structure Date where
  year : Int
  month : Nat
  day : Nat
  deriving Repr, DecidableEq

def isLeapYear (year : Int) : Bool := year % 4 = 0 && (year % 100 ≠ 0 || year % 400 = 0)

def daysInMonth (year : Int) (month : Nat) : Nat :=
  if month = 2 then (if isLeapYear year then 29 else 28)
  else if month = 4 ∨ month = 6 ∨ month = 9 ∨ month = 11 then 30
  else 31

/-- A date that the calendar has. -/
def Date.isValid (d : Date) : Bool :=
  1 ≤ d.month && d.month ≤ 12 && 1 ≤ d.day && d.day ≤ daysInMonth d.year d.month

/-- The days from the first day of 1970 to a date. -/
def daysOf (d : Date) : Int :=
  let year := if d.month ≤ 2 then d.year - 1 else d.year
  let monthFromMarch : Int := if d.month ≤ 2 then d.month + 9 else (d.month : Int) - 3
  let cycle := year / 400
  let yearOfCycle := year % 400
  let dayOfYear := (153 * monthFromMarch + 2) / 5 + d.day - 1
  cycle * 146097 + (yearOfCycle * 365 + yearOfCycle / 4 - yearOfCycle / 100 + dayOfYear) - 719468

/-- The date that lies this many days after the first day of 1970. -/
def dateOf (days : Int) : Date :=
  let shifted := days + 719468
  let cycle := shifted / 146097
  let dayOfCycle := shifted % 146097
  let yearOfCycle :=
    (dayOfCycle - dayOfCycle / 1460 + dayOfCycle / 36524 - dayOfCycle / 146096) / 365
  let dayOfYear := dayOfCycle - (365 * yearOfCycle + yearOfCycle / 4 - yearOfCycle / 100)
  let monthFromMarch := (5 * dayOfYear + 2) / 153
  let day := dayOfYear - (153 * monthFromMarch + 2) / 5 + 1
  let month := if monthFromMarch < 10 then monthFromMarch + 3 else monthFromMarch - 9
  let year := yearOfCycle + cycle * 400
  ⟨if month ≤ 2 then year + 1 else year, month.toNat, day.toNat⟩

end CachedRun.Time

namespace CachedRun

/-- A point in time, in UTC. -/
structure Instant where
  /-- Seconds since the start of 1970. -/
  seconds : Int
  /-- Nanoseconds; a thousand million or more inside a leap second. -/
  nanos : Nat
  deriving Repr, DecidableEq, Inhabited

namespace Instant

/-- Strictly before. -/
def before (a b : Instant) : Bool :=
  a.seconds < b.seconds || (a.seconds == b.seconds && a.nanos < b.nanos)

/-- A whole number of seconds later. Any second that passes leads out of a leap second. -/
def addSeconds (t : Instant) (seconds : Nat) : Instant :=
  ⟨t.seconds + seconds, if seconds = 0 then t.nanos else t.nanos % 1000000000⟩

/-- The last second of the calendar, which ends with the year 262142. -/
def lastSecond : Int := 8210266876799

example : Time.daysOf ⟨262143, 1, 1⟩ * 86400 = lastSecond + 1 := by decide

/-- A whole number of seconds later, if the calendar goes as far as that. -/
def addSeconds? (t : Instant) (seconds : Nat) : Option Instant :=
  if t.seconds + seconds ≤ lastSecond then some (t.addSeconds seconds) else none

/-- The day that an instant lies in. -/
def date (t : Instant) : Time.Date := Time.dateOf (t.seconds / 86400)

/-- The seconds since the start of its day. -/
def secondOfDay (t : Instant) : Nat := (t.seconds % 86400).toNat

end Instant

end CachedRun
