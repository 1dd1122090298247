import CachedRun.Text.Blank

/-!
# Numbers inside XML

Programs write one magnitude in many ways: `8.50`, `8.5`, `+8.5`. A decimal literal is an optional
sign, an integer part without needless zeros, a point with optional digits and an exponent, of which
point or exponent must be there. Its normal form has no plus sign, no zeros at the end of the
fraction except a single one, and an exponent without needless zeros.

Integers and everything else stay as they are, so that identifiers that happen to be digits are
never touched, and digits are never rounded.
-/

set_option autoImplicit false

namespace CachedRun.Xml

/-- Splits a sign off: the sign of the normal form, and the rest. Nothing has no sign. -/
def splitSign? : List Char → Option (List Char × List Char)
  | [] => none
  | '-' :: rest => some (['-'], rest)
  | '+' :: rest => some ([], rest)
  | s => some ([], s)

def isDigits (s : List Char) : Bool := s ≠ [] && s.all Char.isDigit

/-- Splits at the first mark of an exponent. -/
def splitExponent (s : List Char) : List Char × Option (List Char) :=
  match s.dropWhile (fun c => c ≠ 'e' ∧ c ≠ 'E') with
  | [] => (s, none)
  | _ :: exponent => (s.takeWhile (fun c => c ≠ 'e' ∧ c ≠ 'E'), some exponent)

/-- Splits at the first point. -/
def splitPoint (s : List Char) : List Char × Option (List Char) :=
  match Text.splitAtFirst? '.' s with
  | some (whole, fraction) => (whole, some fraction)
  | none => (s, none)

/-- A fraction with its point. -/
def normalFraction : Option (List Char) → Option (List Char)
  | none => some []
  | some fraction =>
    if fraction.all Char.isDigit then
      match Text.dropEndWhile (· == '0') fraction with
      | [] => some ['.', '0']
      | digits => some ('.' :: digits)
    else none

/-- An exponent with its mark. -/
def normalExponent : Option (List Char) → Option (List Char)
  | none => some []
  | some exponent => do
    let (sign, digits) ← splitSign? exponent
    if isDigits digits then
      match digits.dropWhile (· == '0') with
      | [] => some ['e', '0']
      | digits => some ('e' :: (sign ++ digits))
    else none

/-- The normal form of a decimal literal; nothing for any other text. -/
def normalDecimal? (s : List Char) : Option (List Char) := do
  let (sign, unsigned) ← splitSign? s
  let (mantissa, exponent) := splitExponent unsigned
  let (whole, fraction) := splitPoint mantissa
  if fraction = none ∧ exponent = none then none
  else if !isDigits whole || (1 < whole.length && whole.head? == some '0') then none
  else
    let fraction ← normalFraction fraction
    let exponent ← normalExponent exponent
    return sign ++ whole ++ fraction ++ exponent

/-- A decimal literal in its normal form, and any other text as it is. -/
def normalizeNumber (s : List Char) : List Char := (normalDecimal? s).getD s

example : normalizeNumber "+1.250E+03".toList = "1.25e3".toList := by decide +kernel
example : normalizeNumber "007".toList = "007".toList := by decide +kernel

end CachedRun.Xml
