import CachedRun.Text.Blank
import CachedRun.Decimal.Literal

/-!
# Character references

Five characters have names in XML and every character has a number. `unescape` resolves both kinds
of reference, and refuses a text with an `&` that starts none: each `&` must meet a `;` before the
next `&`, and what stands between must be one of the names, or `#` and a decimal number, or `#x` and
a hexadecimal one, of a character other than the null character. `escape` writes the five named
characters by their names.
-/

set_option autoImplicit false

namespace CachedRun.Xml

def escapeChar (c : Char) : List Char :=
  if c = '<' then "&lt;".toList
  else if c = '>' then "&gt;".toList
  else if c = '&' then "&amp;".toList
  else if c = '\'' then "&apos;".toList
  else if c = '"' then "&quot;".toList
  else [c]

/-- A text with the five named characters written by their names. -/
def escape (s : List Char) : List Char := s.flatMap escapeChar

def hexDigit? (c : Char) : Option Nat :=
  if c.isDigit then some (c.toNat - '0'.toNat)
  else if 'a' ≤ c ∧ c ≤ 'f' then some (c.toNat - 'a'.toNat + 10)
  else if 'A' ≤ c ∧ c ≤ 'F' then some (c.toNat - 'A'.toNat + 10)
  else none

/-- A number in a base, by the value of its digits. -/
def number? (base : Nat) (digit? : Char → Option Nat) (digits : List Char) : Option Nat :=
  if digits = [] then none
  else digits.foldlM (fun n c => (digit? c).map (n * base + ·)) 0

/-- The character of a number; the null character and halves of pairs are none. -/
def charOf? (n : Nat) : Option Char := if n ≠ 0 ∧ n.isValidChar then some (Char.ofNat n) else none

/-- The character that a reference stands for, given what is between `&` and `;`. -/
def resolve? (name : List Char) : Option Char :=
  match name with
  | '#' :: 'x' :: digits => (number? 16 hexDigit? digits).bind charOf?
  | '#' :: digits => (number? 10 Decimal.digit? digits).bind charOf?
  | name =>
    if name = ['l', 't'] then some '<'
    else if name = ['g', 't'] then some '>'
    else if name = ['a', 'm', 'p'] then some '&'
    else if name = ['a', 'p', 'o', 's'] then some '\''
    else if name = ['q', 'u', 'o', 't'] then some '"'
    else none

/-- Resolves the references of a text. The first argument holds the name being read, last character
first, if the text before ends inside a reference. -/
def unescapeFrom : Option (List Char) → List Char → Option (List Char)
  | none, [] => some []
  | some _, [] => none
  | none, c :: rest =>
    if c = '&' then unescapeFrom (some []) rest else (unescapeFrom none rest).map (c :: ·)
  | some name, c :: rest =>
    if c = ';' then do
      let resolved ← resolve? name.reverse
      let after ← unescapeFrom none rest
      return resolved :: after
    else if c = '&' then none
    else unescapeFrom (some (c :: name)) rest

/-- The text with its references resolved. -/
def unescape (s : List Char) : Option (List Char) := unescapeFrom none s

example : unescape "a&lt;&#65;&#x42;".toList = some "a<AB".toList := by decide +kernel
example : unescape "&#0;".toList = none := by decide +kernel

end CachedRun.Xml
