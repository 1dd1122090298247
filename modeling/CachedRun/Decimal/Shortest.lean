import CachedRun.Decimal.Double

/-!
# Shortest decimals

Among the decimals that read back as a given double, the one with the fewest digits is written, and
of several with that many digits the nearest one.

The numbers that round to a double form an interval around it, whose ends belong to it exactly when
the mantissa is even. For one, two, … seventeen digits the two neighbours of the double on that
decimal grid are tried; if any point of a grid lies in the interval, so does one of the two, so the
first grid with a hit has the fewest digits. All of it is arithmetic on naturals.
-/

set_option autoImplicit false

namespace CachedRun.Decimal

/-- Where a decimal goes that lies exactly between two candidates. -/
inductive Tie where
  | even
  | up
  deriving Repr, DecidableEq

/-- A positive decimal, `digits * 10^exponent`. -/
structure Digits where
  digits : Nat
  exponent : Int
  deriving Repr, DecidableEq

/-- A positive double on a common denominator: the value, the ends of the interval of numbers that
round to it, and whether the ends belong to the interval. -/
structure Rounded where
  value : Nat
  low : Nat
  high : Nat
  denominator : Nat
  closed : Bool

/-- The interval of a positive double. Below a power of two the next number is only half as far. -/
def rounded (mantissa : Nat) (exponent : Int) : Rounded :=
  let (scale, denominator) := match exponent - 2 with
    | .ofNat e => (Nat.pow 2 e, 1)
    | .negSucc e => (1, Nat.pow 2 (e + 1))
  let below := if mantissa = Nat.pow 2 52 ∧ exponent ≠ -1074 then 1 else 2
  { value := 4 * mantissa * scale
    low := (4 * mantissa - below) * scale
    high := (4 * mantissa + 2) * scale
    denominator
    closed := mantissa % 2 = 0 }

/-- The same fraction with numerator and denominator on the grid of the decimal exponent:
`n / d / 10^exponent`. -/
def onGrid (numerator denominator : Nat) : Int → Nat × Nat
  | .ofNat e => (numerator, denominator * Nat.pow 10 e)
  | .negSucc e => (numerator * Nat.pow 10 (e + 1), denominator)

/-- Whether the grid point `point * 10^exponent` reads back as the double. -/
def Rounded.holds (r : Rounded) (point : Nat) (exponent : Int) : Bool :=
  let (low, d) := onGrid r.low r.denominator exponent
  let (high, _) := onGrid r.high r.denominator exponent
  if r.closed then low ≤ point * d && point * d ≤ high
  else low < point * d && point * d < high

/-- The neighbour on one grid that is written if this grid is fine enough. -/
def Rounded.onGrid? (r : Rounded) (tie : Tie) (exponent : Int) : Option Nat :=
  let (n, d) := onGrid r.value r.denominator exponent
  let lower := n / d
  let upper := lower + 1
  match r.holds lower exponent, r.holds upper exponent with
  | false, false => none
  | true, false => some lower
  | false, true => some upper
  | true, true =>
    let twice := 2 * (n - lower * d)
    if twice < d then some lower
    else if d < twice then some upper
    else match tie with
      | .up => some upper
      | .even => if lower % 2 = 0 then some lower else some upper

/-- The number of digits before the point; for a number below one, minus the number of zeros that
follow the point. -/
def pointPosition (numerator denominator : Nat) : Int :=
  let guess : Int := (Double.digitCount numerator : Int) - Double.digitCount denominator
  let (n, d) := onGrid numerator denominator guess
  if n < d then guess else guess + 1

/-- Tries ever finer grids, at most as many as the number says. -/
def Rounded.search (r : Rounded) (tie : Tie) (exponent : Int) : Nat → Digits
  | 0 => ⟨(onGrid r.value r.denominator exponent).1 / (onGrid r.value r.denominator exponent).2,
      exponent⟩
  | fuel + 1 =>
    match r.onGrid? tie exponent with
    | some d => ⟨d, exponent⟩
    | none => r.search tie (exponent - 1) fuel

/-- Moves the zeros at the end of the digits into the exponent, at most as many as the number
says. -/
def Digits.trimZeros (d : Digits) : Nat → Digits
  | 0 => d
  | fuel + 1 =>
    if d.digits % 10 = 0 then Digits.trimZeros ⟨d.digits / 10, d.exponent + 1⟩ fuel else d

/-- The shortest decimal that reads back as a positive double. -/
def shortest (tie : Tie) (mantissa : Nat) (exponent : Int) : Digits :=
  let r := rounded mantissa exponent
  (r.search tie (pointPosition r.value r.denominator - 1) 17).trimZeros 17

example : shortest .even 7205759403792794 (-56) = ⟨1, -1⟩ := by decide +kernel
example : shortest .even 1 (-1074) = ⟨5, -324⟩ := by decide +kernel

end CachedRun.Decimal
