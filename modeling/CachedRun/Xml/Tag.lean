import CachedRun.Xml.Token
import CachedRun.Xml.Escape
import CachedRun.Dict

/-!
# Tags

The content of an opening tag is a name, which is everything up to the first blank, and attributes.
An attribute is a name, an equals sign and a quoted value, with blanks allowed around the sign. No
blank is needed between attributes. Names must be distinct. The first character of an attribute's
name may be anything, even an equals sign.
-/

set_option autoImplicit false

namespace CachedRun.Xml

/-- An opening tag with its references resolved. -/
structure Tag where
  name : List Char
  /-- Names with values, in the order of the document. -/
  attributes : List (List Char × List Char)
  deriving Repr, DecidableEq

/-- Reads one attribute, given a text that does not start with a blank. -/
def readAttribute : List Char → Option ((List Char × List Char) × List Char)
  | [] => none
  | first :: rest => do
    let isEnd (c : Char) : Bool := c == '=' || isSpace c
    let name := first :: rest.takeWhile (fun c => !isEnd c)
    let afterName := (rest.dropWhile (fun c => !isEnd c)).dropWhile isSpace
    match afterName with
    | '=' :: afterSign =>
      match afterSign.dropWhile isSpace with
      | '"' :: quoted => (readUntil ['"'] quoted).map fun (value, after) => ((name, value), after)
      | '\'' :: quoted => (readUntil ['\''] quoted).map fun (value, after) => ((name, value), after)
      | _ => none
    | _ => none

/-- Reads attributes with their values as written, at most as many as the number says. -/
def readAttributes : Nat → List Char → Option (List (List Char × List Char))
  | fuel, s =>
    match fuel, s.dropWhile isSpace with
    | _, [] => some []
    | 0, _ => none
    | fuel + 1, s => do
      let (first, after) ← readAttribute s
      let others ← readAttributes fuel after
      return first :: others

/-- Whether no name is given twice. -/
def namesDistinct : List (List Char × List Char) → Bool
  | [] => true
  | (name, _) :: rest => rest.all (fun other => other.1 ≠ name) && namesDistinct rest

/-- The name of a tag: what stands before the first blank. -/
def tagName (content : List Char) : List Char := content.takeWhile (fun c => !isSpace c)

/-- Reads the content of an opening tag. -/
def Tag.read? (content : List Char) : Option Tag := do
  let rest := content.dropWhile (fun c => !isSpace c)
  let raw ← readAttributes rest.length rest
  if namesDistinct raw then
    let attributes ← raw.mapM fun (name, value) => (unescape value).map fun v => (name, v)
    return ⟨tagName content, attributes⟩
  else none

end CachedRun.Xml
