import CachedRun.Decimal.Double

/-!
# Reading numbers

Numbers arrive as the text of a stream or a setting. An integer is an optional sign and digits, and
must lie in the range that is asked for; a double is a decimal with optional sign, point and
exponent, or one of the words `inf`, `infinity` and `nan` in any case. Each refusal says which rule
was broken first, reading from the left.
-/

set_option autoImplicit false

namespace CachedRun.Decimal

/-- Why a text is no number. -/
inductive Flaw where
  | emptyInteger
  | invalidDigit
  | tooLarge
  | tooSmall
  | emptyFloat
  | invalidFloat
  deriving Repr, DecidableEq

def Flaw.message : Flaw → String
  | .emptyInteger => "cannot parse integer from empty string"
  | .invalidDigit => "invalid digit found in string"
  | .tooLarge => "number too large to fit in target type"
  | .tooSmall => "number too small to fit in target type"
  | .emptyFloat => "cannot parse float from empty string"
  | .invalidFloat => "invalid float literal"

/-- The value of a decimal digit. -/
def digit? (c : Char) : Option Nat := if c.isDigit then some (c.toNat - '0'.toNat) else none

/-- Reads digits onto a number that must not pass the limit; the first character that is no digit
or passes the limit decides. -/
def readDigits (limit : Nat) (overflow : Flaw) : Nat → List Char → Except Flaw Nat
  | n, [] => .ok n
  | n, c :: rest =>
    match digit? c with
    | none => .error .invalidDigit
    | some d =>
      let next := n * 10 + d
      if next > limit then .error overflow else readDigits limit overflow next rest

/-- Digits, at least one. -/
def readNatural (limit : Nat) (overflow : Flaw) : List Char → Except Flaw Nat
  | [] => .error .invalidDigit
  | s => readDigits limit overflow 0 s

/-- An integer between `-least` and `greatest`. -/
def readInt (least greatest : Nat) : List Char → Except Flaw Int
  | [] => .error .emptyInteger
  | '+' :: rest => (readNatural greatest .tooLarge rest).map Int.ofNat
  | '-' :: rest => (readNatural least .tooSmall rest).map fun n => -(n : Int)
  | s => (readNatural greatest .tooLarge s).map Int.ofNat

/-- A number without a minus sign, at most `greatest`. -/
def readNat (greatest : Nat) : List Char → Except Flaw Nat
  | [] => .error .emptyInteger
  | '+' :: rest => readNatural greatest .tooLarge rest
  | s => readNatural greatest .tooLarge s

/-- The number that a list of digits spells. -/
def value (digits : List Char) : Nat :=
  digits.foldl (fun n c => n * 10 + (c.toNat - '0'.toNat)) 0

/-- Splits off the digits at the front. -/
def spanDigits (s : List Char) : List Char × List Char :=
  (s.takeWhile Char.isDigit, s.dropWhile Char.isDigit)

/-- Splits off a sign; true for a minus. -/
def splitSign : List Char → Bool × List Char
  | '-' :: rest => (true, rest)
  | '+' :: rest => (false, rest)
  | s => (false, s)

/-- What follows the digits: nothing, or the mark `e` with an integer. -/
def readExponent : List Char → Option Int
  | [] => some 0
  | c :: rest =>
    if c = 'e' || c = 'E' then
      let (negative, digits) := splitSign rest
      if digits ≠ [] && digits.all Char.isDigit then
        some (if negative then -(value digits : Int) else value digits)
      else none
    else none

/-- A decimal without its sign. -/
def readUnsigned (negative : Bool) (s : List Char) : Option Double :=
  let (whole, rest) := spanDigits s
  let (fraction, rest) := match rest with
    | '.' :: tail => spanDigits tail
    | _ => ([], rest)
  if whole = [] && fraction = [] then none
  else (readExponent rest).map fun e =>
    Double.ofDecimal negative (value (whole ++ fraction)) (e - fraction.length)

/-- The double that a text spells. -/
def readDouble (s : List Char) : Except Flaw Double :=
  if s = [] then .error .emptyFloat
  else
    let (negative, unsigned) := splitSign s
    let word := String.ofList (unsigned.map Char.toLower)
    if word = "inf" || word = "infinity" then .ok (.infinite negative)
    else if word = "nan" then .ok .nan
    else match readUnsigned negative unsigned with
      | some d => .ok d
      | none => .error .invalidFloat

end CachedRun.Decimal
