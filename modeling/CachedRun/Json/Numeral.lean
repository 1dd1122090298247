import CachedRun.Json.Basic
import CachedRun.Text.Utf8

/-!
# Numerals of JSON

A numeral is a number as it is written: a sign, digits, a fraction and a power of ten. Whether it is
well formed is decided when it is split off, whether it is a number that can be kept only when its
`value?` is asked for: a numeral may be too large for a double and still be well formed.

**Assumption: nearest doubles.** A numeral that is no integer, or that no word can hold, is taken to
mean the double nearest to it. The reader of documents that a program uses comes close to that: it
takes the digits that fit a word and scales them by a power of ten in doubles, which may end at a
neighbour of the nearest double where there are more digits than a double keeps or where the power is
far from zero. `value?` is the only place where the assumption is made, and what is proved of doubles
in documents is proved under it. What is written is not concerned, nor what is read from output.
-/

set_option autoImplicit false

namespace CachedRun.Json

open Text (Place)

/-- A number as it is written. -/
structure Numeral where
  negative : Bool
  whole : List Char
  /-- The digits after the point. -/
  fraction : Option (List Char)
  /-- The number after `e`. -/
  power : Option Int
  deriving Repr, Inhabited

/-- Splits off the digits at the front. -/
def spanDigits : List Place → List Char × List Place
  | some c :: rest =>
    if c.isDigit then
      let (digits, rest) := spanDigits rest
      (c :: digits, rest)
    else ([], some c :: rest)
  | s => ([], s)

/-- The number that digits spell. -/
def digitsValue (digits : List Char) : Nat :=
  digits.foldl (fun n c => n * 10 + (c.toNat - '0'.toNat)) 0

/-- The digits after a point; an error if the point is not followed by one. -/
def readFraction : List Place → Option (Option (List Char) × List Place)
  | some '.' :: rest =>
    match spanDigits rest with
    | ([], _) => none
    | (digits, rest) => some (some digits, rest)
  | s => some (none, s)

/-- The exponent after `e` or `E`; an error if it has no digits. -/
def readPower (s : List Place) : Option (Option Int × List Place) :=
  match s with
  | some c :: rest =>
    if c = 'e' ∨ c = 'E' then
      let (negative, rest) := match rest with
        | some '-' :: tail => (true, tail)
        | some '+' :: tail => (false, tail)
        | tail => (false, tail)
      match spanDigits rest with
      | ([], _) => none
      | (digits, rest) =>
        some (some (if negative then -(digitsValue digits : Int) else digitsValue digits), rest)
    else some (none, s)
  | s => some (none, s)

/-- The digits before a point: a zero stands alone. -/
def readWhole : List Place → Option (List Char × List Place)
  | some '0' :: rest => some (['0'], rest)
  | s =>
    match spanDigits s with
    | ([], _) => none
    | (digits, rest) => some (digits, rest)

/-- A numeral after its sign. -/
def readNumeral (negative : Bool) (s : List Place) : Option (Numeral × List Place) := do
  let (whole, rest) ← readWhole s
  let (fraction, rest) ← readFraction rest
  let (power, rest) ← readPower rest
  return (⟨negative, whole, fraction, power⟩, rest)

/-- A double inside a document; one beyond the range is refused. -/
def finite? (d : Double) : Option Json := if d.isFinite then some (.double d) else none

/-- The value of a numeral. Without fraction and exponent it is an integer if it lies in the range
of integers, and a minus before zero makes a double. A double is the nearest one, which is the
assumption named above. -/
def Numeral.value? (n : Numeral) : Option Json :=
  match n.fraction, n.power with
  | none, none =>
    let size := digitsValue n.whole
    if n.negative then
      if 0 < size ∧ size ≤ Nat.pow 2 63 then some (.integer (-(size : Int)))
      else finite? (.ofDecimal true size 0)
    else if size < Nat.pow 2 64 then some (.integer size)
    else finite? (.ofDecimal false size 0)
  | _, _ =>
    let digits := n.fraction.getD []
    finite? (.ofDecimal n.negative (digitsValue (n.whole ++ digits))
      (n.power.getD 0 - digits.length))

end CachedRun.Json
