import CachedRun.Time.Instant
import CachedRun.Text.Blank
import CachedRun.Decimal.Layout
import CachedRun.Decimal.Literal

/-!
# Dates and times as text

Instants are written in the profile of RFC 3339, in UTC with the mark `Z`. A year outside of 0 to
9999 gets a sign. `toMillis` always writes three digits of the fraction and is what programs see;
`toShortest` writes none, three, six or nine, whichever is enough, and is what documents hold.

There are two readers. `readStrict` takes the profile itself: fixed widths, a colon in the offset.
`readRelaxed` takes what people write: numbers of fewer digits, blanks around the separators, signed
years, an offset without colon, or the name of the zone instead of an offset.

Second 60 is a leap second. An offset must be shorter than a day.
-/

set_option autoImplicit false

namespace CachedRun.Time

/-! ## Writing -/

/-- Four digits, with a sign outside of 0 to 9999. -/
def yearText (year : Int) : List Char :=
  if 0 ≤ year ∧ year ≤ 9999 then Decimal.padded 4 year.natAbs
  else (if year < 0 then '-' else '+') :: Decimal.padded 4 year.natAbs

/-- Date and time up to the second; a leap second is second 60. -/
def secondsText (t : Instant) : List Char :=
  let d := t.date
  let s := t.secondOfDay
  yearText d.year ++ '-' :: (Decimal.padded 2 d.month ++ '-' :: (Decimal.padded 2 d.day ++ 'T' ::
    (Decimal.padded 2 (s / 3600) ++ ':' :: (Decimal.padded 2 (s / 60 % 60) ++ ':' ::
      Decimal.padded 2 (s % 60 + t.nanos / 1000000000)))))

/-- The fraction without digits that a coarser unit does not need. -/
def shortestFraction (nanos : Nat) : List Char :=
  if nanos = 0 then []
  else if nanos % 1000000 = 0 then '.' :: Decimal.padded 3 (nanos / 1000000)
  else if nanos % 1000 = 0 then '.' :: Decimal.padded 6 (nanos / 1000)
  else '.' :: Decimal.padded 9 nanos

/-- The form with three digits of the fraction, the rest cut off. -/
def toMillis (t : Instant) : String :=
  let millis := t.nanos % 1000000000 / 1000000
  String.ofList (secondsText t ++ '.' :: (Decimal.padded 3 millis ++ ['Z']))

/-- The form with as many digits of the fraction as are needed. -/
def toShortest (t : Instant) : String :=
  String.ofList (secondsText t ++ shortestFraction (t.nanos % 1000000000) ++ ['Z'])

/-! ## Parts of both readers -/

/-- Reads between `least` and `most` digits, as many as there are. -/
def readNumber (least : Nat) (most : Option Nat) (s : List Char) : Option (Nat × List Char) :=
  let run := s.takeWhile Char.isDigit
  let digits := match most with
    | some n => run.take n
    | none => run
  if digits.length < least then none
  else some (Decimal.value digits, s.drop digits.length)

/-- Reads one character. -/
def readChar (c : Char) : List Char → Option (List Char)
  | d :: rest => if d = c then some rest else none
  | [] => none

/-- Reads the mark between date and time. -/
def readSeparator : List Char → Option (List Char)
  | c :: rest => if c = 'T' ∨ c = 't' ∨ c = ' ' then some rest else none
  | [] => none

/-- Reads a fraction of a second, in nanoseconds: a point and digits, of which nine count. -/
def readFraction : List Char → Option (Nat × List Char)
  | '.' :: rest =>
    let run := rest.takeWhile Char.isDigit
    if run = [] then none
    else
      let digits := run.take 9
      some (Decimal.value digits * Nat.pow 10 (9 - digits.length), rest.drop run.length)
  | s => some (0, s)

/-- Reads an offset from UTC, in seconds: `Z`, or a sign, two digits of hours, what stands between,
and two digits of minutes below 60. -/
def readOffset (between : List Char → Option (List Char)) : List Char → Option (Int × List Char)
  | [] => none
  | c :: rest =>
    if c = 'Z' ∨ c = 'z' then some (0, rest)
    else if c = '+' ∨ c = '-' ∨ c = '\u2212' then do
      let (hours, rest) ← readNumber 2 (some 2) rest
      let rest ← between rest
      let (minutes, rest) ← readNumber 2 (some 2) rest
      if 59 < minutes then none
      else
        let seconds : Int := (hours * 60 + minutes) * 60
        some (if c = '+' then seconds else -seconds, rest)
    else none

/-- The fields of a date and time with its offset. -/
structure Fields where
  date : Date
  hour : Nat
  minute : Nat
  second : Nat
  nanos : Nat
  offset : Int

/-- The years that instants may lie in. -/
def isYear (year : Int) : Bool := -262143 ≤ year && year ≤ 262142

/-- The instant that fields denote, if there is such a day and time, both where it was written and
in UTC. -/
def Fields.instant? (f : Fields) : Option Instant :=
  if f.date.isValid && isYear f.date.year && f.hour ≤ 23 && f.minute ≤ 59 && f.second ≤ 60
      && f.offset.natAbs < 86400 then
    let leap := if f.second = 60 then 1 else 0
    let written := daysOf f.date * 86400 + (f.hour * 60 + f.minute) * 60 + (f.second - leap : Nat)
    let t : Instant := ⟨written - f.offset, f.nanos + leap * 1000000000⟩
    if isYear t.date.year then some t else none
  else none

/-! ## The two readers -/

/-- The instant that a text in the profile of RFC 3339 denotes. -/
def readStrict (s : List Char) : Option Instant := do
  let (year, s) ← readNumber 4 (some 4) s
  let s ← readChar '-' s
  let (month, s) ← readNumber 2 (some 2) s
  let s ← readChar '-' s
  let (day, s) ← readNumber 2 (some 2) s
  let s ← readSeparator s
  let (hour, s) ← readNumber 2 (some 2) s
  let s ← readChar ':' s
  let (minute, s) ← readNumber 2 (some 2) s
  let s ← readChar ':' s
  let (second, s) ← readNumber 2 (some 2) s
  let (nanos, s) ← readFraction s
  let (offset, s) ← readOffset (readChar ':') s
  if s ≠ [] then none
  else Fields.instant? ⟨⟨year, month, day⟩, hour, minute, second, nanos, offset⟩

/-- Reads a year: with a sign any number of digits, without one up to four. -/
def readYear (s : List Char) : Option (Int × List Char) :=
  match Text.trimStart s with
  | '-' :: rest => (readNumber 1 none rest).map fun (n, rest) => (-(n : Int), rest)
  | '+' :: rest => (readNumber 1 none rest).map fun (n, rest) => ((n : Int), rest)
  | s => (readNumber 1 (some 4) s).map fun (n, rest) => ((n : Int), rest)

/-- Reads one or two digits after blanks. -/
def readField (s : List Char) : Option (Nat × List Char) :=
  readNumber 1 (some 2) (Text.trimStart s)

/-- Reads a character after blanks. -/
def readMark (c : Char) (s : List Char) : Option (List Char) := readChar c (Text.trimStart s)

/-- Reads the zone: its name or an offset. -/
def readZone (s : List Char) : Option (Int × List Char) :=
  match s with
  | a :: b :: c :: rest =>
    if String.ofList ([a, b, c].map Char.toUpper) = "UTC" then some (0, rest) else offset s
  | _ => offset s
where
  offset : List Char → Option (Int × List Char) :=
    readOffset fun s => some (s.dropWhile fun c => c == ':' || Text.isBlank c)

/-- The instant that a date and time as people write it denotes. -/
def readRelaxed (s : List Char) : Option Instant := do
  let (year, s) ← readYear s
  let s ← readMark '-' s
  let (month, s) ← readField s
  let s ← readMark '-' s
  let (day, s) ← readField s
  let s ← readSeparator s
  let (hour, s) ← readField s
  let s ← readMark ':' s
  let (minute, s) ← readField s
  let s ← readMark ':' s
  let (second, s) ← readField s
  let (nanos, s) ← readFraction s
  let (offset, s) ← readZone (Text.trimStart s)
  if Text.trimStart s ≠ [] then none
  else Fields.instant? ⟨⟨year, month, day⟩, hour, minute, second, nanos, offset⟩

example : (readStrict "2016-12-31T23:59:60.5Z".toList).map toShortest
    = some "2016-12-31T23:59:60.500Z" := by decide +kernel
example : (readStrict "2020-02-29T00:30:00+01:00".toList).map toMillis
    = some "2020-02-28T23:30:00.000Z" := by decide +kernel

end CachedRun.Time
