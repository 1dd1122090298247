import CachedRun.Json.Letter
import CachedRun.Json.Numeral

/-!
# JSON tokens

A document is first cut into tokens: the punctuation, the three words, strings and numerals. A token
is well formed, but strings and numerals are not read here.
-/

set_option autoImplicit false

namespace CachedRun.Json

open Text (Place)

/-- A piece of a document. -/
inductive Token where
  | openArray
  | closeArray
  | openObject
  | closeObject
  | comma
  | colon
  | null
  | bool (value : Bool)
  | string (letters : Letters)
  | number (numeral : Numeral)
  deriving Repr, Inhabited

/-- The four characters that may stand between tokens. -/
def isSpace (place : Place) : Bool :=
  place == some ' ' || place == some '\t' || place == some '\n' || place == some '\r'

/-- The token at the front of a document that does not begin with a space. -/
def readToken : List Place → Option (Token × List Place)
  | some '[' :: rest => some (.openArray, rest)
  | some ']' :: rest => some (.closeArray, rest)
  | some '\x7b' :: rest => some (.openObject, rest)
  | some '\x7d' :: rest => some (.closeObject, rest)
  | some ',' :: rest => some (.comma, rest)
  | some ':' :: rest => some (.colon, rest)
  | some '"' :: rest => (readString [] rest).map fun (s, rest) => (.string s, rest)
  | some 'n' :: some 'u' :: some 'l' :: some 'l' :: rest => some (.null, rest)
  | some 't' :: some 'r' :: some 'u' :: some 'e' :: rest => some (.bool true, rest)
  | some 'f' :: some 'a' :: some 'l' :: some 's' :: some 'e' :: rest => some (.bool false, rest)
  | some '-' :: rest => (readNumeral true rest).map fun (n, rest) => (.number n, rest)
  | s => (readNumeral false s).map fun (n, rest) => (.number n, rest)

/-- The tokens of a document of at most as many tokens as the number says. -/
def tokensWithin : Nat → List Place → Option (List Token)
  | fuel, s =>
    match fuel, s.dropWhile isSpace with
    | _, [] => some []
    | 0, _ => none
    | fuel + 1, s =>
      match readToken s with
      | none => none
      | some (token, rest) => (tokensWithin fuel rest).map (token :: ·)

/-- The tokens of a document. Each has at least one character. -/
def tokens (s : List Place) : Option (List Token) := tokensWithin s.length s

end CachedRun.Json
