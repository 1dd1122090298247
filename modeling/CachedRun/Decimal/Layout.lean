import CachedRun.Decimal.Shortest

/-!
# How doubles are laid out

The digits of a double are the shortest ones; where positional layout ends, and how the exponent is
written, is a matter of the place that the number is written to. A `Layout` holds those decisions:
`Layout.literal` is used for values that a program reads and `Layout.json` inside JSON documents.
-/

set_option autoImplicit false

namespace CachedRun.Decimal

/-- The decisions of a place that numbers are written to. With the value written as
`0.ddd * 10^point`, positional layout is used for points between the two bounds. -/
structure Layout where
  leastPoint : Int
  greatestPoint : Int
  /-- A positive exponent is written with its sign. -/
  plusSign : Bool
  tie : Tie
  deriving Repr, DecidableEq

/-- Values are positional from `0.0001` up to below `10^16`, and the exponent has no plus sign. -/
def Layout.literal : Layout := ⟨-3, 16, false, .up⟩

/-- JSON numbers are positional from `0.00001` up to below `10^16`, and a positive exponent has its
sign. -/
def Layout.json : Layout := ⟨-4, 16, true, .even⟩

def digitsText (n : Nat) : List Char := Nat.toDigits 10 n

def zeros (n : Nat) : List Char := List.replicate n '0'

/-- A number with leading zeros up to a width. -/
def padded (width n : Nat) : List Char :=
  let digits := digitsText n
  zeros (width - digits.length) ++ digits

def intText (i : Int) : List Char :=
  match i with
  | .ofNat n => digitsText n
  | .negSucc n => '-' :: digitsText (n + 1)

/-- A whole number keeps `.0`, and a number below one its leading zero. -/
def positional (digits : List Char) (point : Int) : List Char :=
  if point ≤ 0 then '0' :: '.' :: (zeros point.natAbs ++ digits)
  else
    let whole := digits.take point.natAbs
    let fraction := digits.drop point.natAbs
    let padding := zeros (point.natAbs - digits.length)
    whole ++ padding ++ '.' :: (if fraction = [] then ['0'] else fraction)

/-- One digit before the point, and no point if it is the only one. -/
def Layout.scientific (layout : Layout) (digits : List Char) (point : Int) : List Char :=
  let exponent := point - 1
  let mark := if layout.plusSign && 0 ≤ exponent then ['e', '+'] else ['e']
  let mantissa := match digits with
    | [] => ['0']
    | [d] => [d]
    | d :: rest => d :: '.' :: rest
  mantissa ++ mark ++ intText exponent

/-- A positive decimal. -/
def Layout.positive (layout : Layout) (d : Digits) : List Char :=
  let digits := digitsText d.digits
  let point : Int := digits.length + d.exponent
  if layout.leastPoint ≤ point && point ≤ layout.greatestPoint then positional digits point
  else layout.scientific digits point

/-- The text of a double. -/
def Layout.write (layout : Layout) : Double → List Char
  | .nan => ['N', 'a', 'N']
  | .infinite negative => (if negative then ['-'] else []) ++ ['i', 'n', 'f']
  | .finite negative mantissa exponent =>
    (if negative then ['-'] else []) ++
      if mantissa = 0 then ['0', '.', '0']
      else layout.positive (shortest layout.tie mantissa exponent)

/-- The text of a double as a value. -/
def literalText (d : Double) : String := String.ofList (Layout.literal.write d)

example : literalText (.ofDecimal false 15 (-1)) = "1.5" := by decide +kernel
example : literalText (.ofDecimal true 0 0) = "-0.0" := by decide +kernel
example : literalText (.ofDecimal false 1 16) = "1e16" := by decide +kernel
example : String.ofList (Layout.json.write (.ofDecimal false 15 299)) = "1.5e+300" := by
  decide +kernel

end CachedRun.Decimal
