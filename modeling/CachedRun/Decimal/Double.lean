/-!
# Double precision numbers

A double is kept as what it denotes: not a number, an infinity, or a sign with
`mantissa * 2^exponent`. Nothing in this library computes with doubles; they are read, compared as
text and written. So all that is needed of their arithmetic is rounding, and rounding is exact
arithmetic on naturals.

`Double.nearest` is the one way to make a finite double: it takes a fraction and gives the nearest
representable number, a tie going to the even mantissa and a number beyond the range to infinity.
-/

set_option autoImplicit false

namespace CachedRun

/-- A double precision number. A finite one has `mantissa < 2^53`, and `2^52 ≤ mantissa` unless the
exponent is the least one, `-1074`. -/
inductive Double where
  | nan
  | infinite (negative : Bool)
  | finite (negative : Bool) (mantissa : Nat) (exponent : Int)
  deriving Repr, DecidableEq, Inhabited

namespace Double

def zero (negative : Bool) : Double := .finite negative 0 (-1074)

/-- Neither infinite nor undefined. -/
def isFinite : Double → Bool
  | .finite .. => true
  | _ => false

/-- `numerator / (denominator * 2^exponent)` as a fraction. -/
def unscale (numerator denominator : Nat) : Int → Nat × Nat
  | .ofNat e => (numerator, denominator * Nat.pow 2 e)
  | .negSucc e => (numerator * Nat.pow 2 (e + 1), denominator)

/-- The quotient rounded to the nearest natural, a tie going to the even one. -/
def roundHalfEven (numerator denominator : Nat) : Nat :=
  let quotient := numerator / denominator
  let twice := 2 * (numerator % denominator)
  if twice < denominator then quotient
  else if twice > denominator then quotient + 1
  else if quotient % 2 = 0 then quotient else quotient + 1

/-- The exponent at which the fraction has a mantissa of 53 bits, or the least exponent. The first
guess from the lengths of the two numbers is exact or one too small. -/
def fitting (numerator denominator : Nat) : Int :=
  let guess : Int := max (-1074) ((numerator.log2 : Int) - denominator.log2 - 53)
  let (n, d) := unscale numerator denominator guess
  if d * Nat.pow 2 53 ≤ n then guess + 1 else guess

/-- The double nearest to a fraction. -/
def nearest (negative : Bool) (numerator denominator : Nat) : Double :=
  if numerator = 0 then zero negative
  else
    let exponent := fitting numerator denominator
    let (n, d) := unscale numerator denominator exponent
    let mantissa := roundHalfEven n d
    let (mantissa, exponent) :=
      if mantissa = Nat.pow 2 53 then (Nat.pow 2 52, exponent + 1) else (mantissa, exponent)
    if exponent > 971 then .infinite negative else .finite negative mantissa exponent

/-- The number of decimal digits of a positive number; one for zero. -/
def digitCount (n : Nat) : Nat := (Nat.toDigits 10 n).length

/-- The double nearest to `digits * 10^exponent`. Numbers of more than 310 digits before the point
are beyond the range and numbers below `10^-330` round to zero, whatever their digits. -/
def ofDecimal (negative : Bool) (digits : Nat) (exponent : Int) : Double :=
  if digits = 0 then zero negative
  else
    let magnitude : Int := digitCount digits + exponent
    if magnitude > 310 then .infinite negative
    else if magnitude < -330 then zero negative
    else match exponent with
      | .ofNat e => nearest negative (digits * Nat.pow 10 e) 1
      | .negSucc e => nearest negative digits (Nat.pow 10 (e + 1))

/-- The double nearest to an integer. -/
def ofInt (i : Int) : Double := nearest (i < 0) i.natAbs 1

example : ofDecimal false 1 (-1) = .finite false 7205759403792794 (-56) := by decide +kernel
example : ofDecimal false 5 (-324) = .finite false 1 (-1074) := by decide +kernel

end Double

end CachedRun
