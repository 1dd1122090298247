import CachedRun.Text.Utf8

/-!
# Strings of JSON

A string may hold any character but a quote, a backslash and the control characters; those are
escaped, by a letter or by four hexadecimal digits. A character beyond the first 65536 is written
with two such numbers, its halves.

`readString` splits a string off and sees that its escapes are well formed. What it finds are
`Letter`s, and not every list of them is a text: a half may stand alone, and bytes may be no
character. `Letters.text?` reads those lists that are.
-/

set_option autoImplicit false

namespace CachedRun.Json

open Text (Place)

/-- A letter of a string. -/
inductive Letter where
  /-- A character as itself or after a backslash, or bytes that are none. -/
  | plain (place : Place)
  /-- Four hexadecimal digits. -/
  | numbered (number : Nat)
  deriving Repr, DecidableEq

/-- A string whose letters are not read yet. -/
abbrev Letters := List Letter

def hexDigit? (c : Char) : Option Nat :=
  if c.isDigit then some (c.toNat - '0'.toNat)
  else if 'a' ≤ c ∧ c ≤ 'f' then some (c.toNat - 'a'.toNat + 10)
  else if 'A' ≤ c ∧ c ≤ 'F' then some (c.toNat - 'A'.toNat + 10)
  else none

/-- The number of four hexadecimal digits. -/
def hexNumber? (a b c d : Char) : Option Nat := do
  let a ← hexDigit? a
  let b ← hexDigit? b
  let c ← hexDigit? c
  let d ← hexDigit? d
  return a * 4096 + b * 256 + c * 16 + d

/-- The character that a letter after a backslash stands for. -/
def escapedLetter? (c : Char) : Option Char :=
  if c = '"' ∨ c = '\\' ∨ c = '/' then some c
  else if c = 'b' then some '\x08'
  else if c = 'f' then some '\x0c'
  else if c = 'n' then some '\n'
  else if c = 'r' then some '\r'
  else if c = 't' then some '\t'
  else none

/-- Splits off the rest of a string with its closing quote. The accumulator holds the letters
found, last one first. -/
def readString : Letters → List Place → Option (Letters × List Place)
  | _, [] => none
  | found, none :: rest => readString (.plain none :: found) rest
  | found, some '"' :: rest => some (found.reverse, rest)
  | found, some '\\' :: some 'u' :: some a :: some b :: some c :: some d :: rest =>
    match hexNumber? a b c d with
    | some n => readString (.numbered n :: found) rest
    | none => none
  | found, some '\\' :: some c :: rest =>
    match escapedLetter? c with
    | some e => readString (.plain (some e) :: found) rest
    | none => none
  | found, some c :: rest =>
    if c.toNat < 32 ∨ c = '\\' then none else readString (.plain (some c) :: found) rest

/-- Whether a number is the first half of a character. -/
def isFirstHalf (n : Nat) : Bool := 0xD800 ≤ n && n < 0xDC00

/-- Whether a number is the second half of a character. -/
def isSecondHalf (n : Nat) : Bool := 0xDC00 ≤ n && n < 0xE000

/-- The character of two halves. -/
def joined (first second : Nat) : Char :=
  Char.ofNat (0x10000 + (first - 0xD800) * 0x400 + (second - 0xDC00))

/-- The characters of letters. The accumulator holds those before, last one first. -/
def readLetters : List Char → Letters → Option (List Char)
  | before, [] => some before.reverse
  | before, .plain (some c) :: rest => readLetters (c :: before) rest
  | _, .plain none :: _ => none
  | before, .numbered n :: rest =>
    if isSecondHalf n then none
    else if isFirstHalf n then
      match rest with
      | .numbered m :: rest =>
        if isSecondHalf m then readLetters (joined n m :: before) rest else none
      | _ => none
    else readLetters (Char.ofNat n :: before) rest

/-- The text of a string, if it is one. -/
def Letters.text? (letters : Letters) : Option String := (readLetters [] letters).map String.ofList

end CachedRun.Json
