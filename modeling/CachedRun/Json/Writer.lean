import CachedRun.Json.Basic

/-!
# Writing JSON

`compact` writes a value without any blanks and `pretty` with one field or item a line, two blanks
deeper at each level. Both write what they are given: fields come in the order of the value, so a
canonical value is written with its names in ascending order.

A string is written between quotes with the two characters `"` and `\` and all control characters
escaped, the usual five by a letter and the others by number. JSON has no spelling for a number that
is not finite; it is written as `null`.
-/

set_option autoImplicit false

namespace CachedRun.Json

/-- Four hexadecimal digits. -/
def hex4 (n : Nat) : List Char :=
  [n / 4096 % 16, n / 256 % 16, n / 16 % 16, n % 16].map Nat.digitChar

/-- One character inside a string. -/
def escapeChar (c : Char) : List Char :=
  if c = '"' then ['\\', '"']
  else if c = '\\' then ['\\', '\\']
  else if c.toNat = 8 then ['\\', 'b']
  else if c.toNat = 9 then ['\\', 't']
  else if c.toNat = 10 then ['\\', 'n']
  else if c.toNat = 12 then ['\\', 'f']
  else if c.toNat = 13 then ['\\', 'r']
  else if c.toNat < 32 then '\\' :: 'u' :: hex4 c.toNat
  else [c]

/-- A string with its quotes. -/
def quoted (s : String) : List Char := '"' :: (s.toList.flatMap escapeChar ++ ['"'])

/-- The text of a double inside a document. -/
def doubleText (d : Double) : List Char :=
  if d.isFinite then Decimal.Layout.json.write d else ['n', 'u', 'l', 'l']

/-- A value that holds no others. -/
def scalar : Json → List Char
  | .null => ['n', 'u', 'l', 'l']
  | .bool true => ['t', 'r', 'u', 'e']
  | .bool false => ['f', 'a', 'l', 's', 'e']
  | .integer i => Decimal.intText i
  | .double d => doubleText d
  | .string s => quoted s
  | .array _ => []
  | .object _ => []

mutual

/-- A value without blanks. -/
def compactChars : Json → List Char
  | .array items => '[' :: (compactItems items ++ [']'])
  | .object fields => '\x7b' :: (compactFields fields ++ ['\x7d'])
  | .null => scalar .null
  | .bool b => scalar (.bool b)
  | .integer i => scalar (.integer i)
  | .double d => scalar (.double d)
  | .string s => scalar (.string s)
termination_by structural j => j

/-- Items with commas between them. -/
def compactItems : List Json → List Char
  | [] => []
  | [item] => compactChars item
  | item :: rest => compactChars item ++ ',' :: compactItems rest
termination_by structural items => items

/-- Fields with commas between them. -/
def compactFields : List (String × Json) → List Char
  | [] => []
  | [(name, value)] => quoted name ++ ':' :: compactChars value
  | (name, value) :: rest => quoted name ++ ':' :: (compactChars value ++ ',' :: compactFields rest)
termination_by structural fields => fields

end

/-- The text of a value without blanks. -/
def compact (j : Json) : String := String.ofList (compactChars j)

/-- A new line and the blanks of a level. -/
def newLine (level : Nat) : List Char := '\n' :: List.replicate (2 * level) ' '

mutual

/-- A value at a level; empty arrays and objects stay on one line. -/
def prettyChars (level : Nat) : Json → List Char
  | .array [] => ['[', ']']
  | .array (item :: rest) =>
    '[' :: (newLine (level + 1) ++ prettyChars (level + 1) item
      ++ prettyItems (level + 1) rest ++ newLine level ++ [']'])
  | .object [] => ['\x7b', '\x7d']
  | .object ((name, value) :: rest) =>
    '\x7b' :: (newLine (level + 1) ++ quoted name ++ ':' :: ' ' :: (prettyChars (level + 1) value
      ++ prettyFields (level + 1) rest ++ newLine level ++ ['\x7d']))
  | .null => scalar .null
  | .bool b => scalar (.bool b)
  | .integer i => scalar (.integer i)
  | .double d => scalar (.double d)
  | .string s => scalar (.string s)
termination_by structural j => j

/-- The items after the first one. -/
def prettyItems (level : Nat) : List Json → List Char
  | [] => []
  | item :: rest => ',' :: (newLine level ++ prettyChars level item ++ prettyItems level rest)
termination_by structural items => items

/-- The fields after the first one. -/
def prettyFields (level : Nat) : List (String × Json) → List Char
  | [] => []
  | (name, value) :: rest =>
    ',' :: (newLine level ++ quoted name ++ ':' :: ' ' :: (prettyChars level value
      ++ prettyFields level rest))
termination_by structural fields => fields

end

/-- The text of a value with one field or item a line. -/
def pretty (j : Json) : String := String.ofList (prettyChars 0 j)

example : compact (.object [("a", .array [.integer (-1), .bool true]), ("b\n", .null)])
    = "\x7b\"a\":[-1,true],\"b\\n\":null\x7d" := by decide +kernel

end CachedRun.Json
