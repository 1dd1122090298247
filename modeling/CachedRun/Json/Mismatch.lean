import CachedRun.Json.Writer
import CachedRun.Text.Utf8

/-!
# Values of the wrong form

Whoever reads a JSON value expects a form of it: a number in a range, an object with certain fields,
an array of a certain length. A `Mismatch` says what was found instead, and its message is what the
author of the document gets to see. The readers here expect one form each.
-/

set_option autoImplicit false

namespace CachedRun.Json

/-- Why a value is not of the form that is expected. -/
inductive Mismatch where
  | kind (found expected : String)
  | content (found expected : String)
  | length (found : Nat) (expected : String)
  | unknown (name : String) (known : List String)
  | missing (field : String)
  | repeated (field : String)
  /-- A text that cannot be read as what it should stand for. -/
  | unreadable (reason : String)
  deriving Repr, DecidableEq

namespace Mismatch

/-- A name between backquotes. -/
def named (name : String) : String := s!"\u0060{name}\u0060"

def message : Mismatch → String
  | .kind found expected => s!"invalid type: {found}, expected {expected}"
  | .content found expected => s!"invalid value: {found}, expected {expected}"
  | .length found expected => s!"invalid length {found}, expected {expected}"
  | .unknown name known =>
    let choice := ", ".intercalate (known.map named)
    s!"unknown variant {named name}, expected one of {choice}"
  | .missing field => s!"missing field {named field}"
  | .repeated field => s!"duplicate field {named field}"
  | .unreadable reason => reason

end Mismatch

/-- A character of a text in quotes. -/
def shownChar (c : Char) : List Char :=
  let n := c.toNat
  match c with
  | '"' => ['\\', '"']
  | '\\' => ['\\', '\\']
  | '\n' => ['\\', 'n']
  | '\r' => ['\\', 'r']
  | '\t' => ['\\', 't']
  | '\x00' => ['\\', '0']
  | c =>
    if n < 0x20 ∨ (0x7F ≤ n ∧ n < 0xA0) then
      "\\u\x7b".toList ++ Nat.toDigits 16 n ++ "\x7d".toList
    else [c]

/-- What a value is, as a mismatch says it. -/
def shown : Json → String
  | .null => "null"
  | .bool b => "boolean " ++ Mismatch.named (if b then "true" else "false")
  | .integer i => "integer " ++ Mismatch.named (String.ofList (Decimal.intText i))
  | .double d => "floating point " ++ Mismatch.named (String.ofList (doubleText d))
  | .string s => "string \"" ++ String.ofList (s.toList.flatMap shownChar) ++ "\""
  | .array _ => "sequence"
  | .object _ => "map"

/-! ## Readers -/

/-- The refusal of a value of another kind. -/
def refuse {α : Type} (j : Json) (expected : String) : Except Mismatch α :=
  .error (.kind j.shown expected)

def asText : Json → Except Mismatch String
  | .string s => .ok s
  | j => j.refuse "a string"

def asBool : Json → Except Mismatch Bool
  | .bool b => .ok b
  | j => j.refuse "a boolean"

/-- A number as a double: an integer goes to the nearest one. -/
def asDouble : Json → Except Mismatch Double
  | .integer i => .ok (.ofInt i)
  | .double d => .ok d
  | j => j.refuse "f64"

/-- An integer between two bounds, of a type with a name. -/
def asInt (least greatest : Int) (type : String) : Json → Except Mismatch Int
  | .integer i =>
    if least ≤ i ∧ i ≤ greatest then .ok i
    else .error (.content (Json.integer i).shown type)
  | j => j.refuse type

/-- A byte. -/
def asByte (j : Json) : Except Mismatch UInt8 :=
  (j.asInt 0 255 "u8").map fun n => UInt8.ofNat n.toNat

/-- An array of bytes. -/
def asBytes : Json → Except Mismatch Bytes
  | .array items => items.mapM asByte
  | j => j.refuse "a sequence"

/-- Refuses items behind the last one that is expected. -/
def noMore (length : Nat) : List Json → Except Mismatch Unit
  | [] => .ok ()
  | _ => .error (.length length "fewer elements in array")

/-- An array of two numbers. -/
def asPair : Json → Except Mismatch (Double × Double)
  | .array [] => .error (.length 0 "an array of length 2")
  | .array [a] => do
    let _ ← a.asDouble
    throw (.length 1 "an array of length 2")
  | .array (a :: b :: rest) => do
    let a ← a.asDouble
    let b ← b.asDouble
    noMore (rest.length + 2) rest
    return (a, b)
  | j => j.refuse "an array of length 2"

/-- A field that may be there once. -/
def optionalField (name : String) (fields : List (String × Json)) : Except Mismatch (Option Json) :=
  match fields.filter fun field => field.1 = name with
  | [] => .ok none
  | [(_, value)] => .ok (some value)
  | _ => .error (.repeated name)

/-- A field that must be there once. -/
def requiredField (name : String) (fields : List (String × Json)) : Except Mismatch Json := do
  match ← optionalField name fields with
  | some value => return value
  | none => throw (.missing name)

end CachedRun.Json
