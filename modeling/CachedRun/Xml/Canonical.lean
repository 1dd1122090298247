import CachedRun.Xml.Tag
import CachedRun.Xml.Number

/-!
# Canonical XML

Two documents that differ only in layout have the same canonical form: what is not an element or
text goes, texts lose the blanks at their ends and vanish if nothing is left, attributes are sorted
by name, and an empty element is written as a pair of tags. On request numbers are brought to their
normal form too.

`items` is the content of a document in this sense and `render` writes it; `canonical` is one after
the other. `root` reads only as far as the first tag.
-/

set_option autoImplicit false

namespace CachedRun.Xml

/-- Why a text is no document. -/
inductive Flaw where
  | severalRoots
  | noRoot
  | unclosed
  | textOutside
  /-- Markup, an attribute or a reference that cannot be read, or tags that do not match. This is
  everything that the library behind the reader refuses, for whatever reason. -/
  | malformed
  deriving Repr, DecidableEq

/-- The wording of a flaw. Those that the reader finds itself have their own. The library words each
of its refusals in its own way, with positions and names; that is left out, and one text stands for
all of them. -/
def Flaw.message : Flaw → String
  | .severalRoots => "more than one root element"
  | .noRoot => "no root element"
  | .unclosed => "unclosed element"
  | .textOutside => "text outside of the root element"
  | .malformed => "malformed markup"

/-- A part of a document's content. -/
inductive Item where
  | opening (name : List Char) (attributes : List (List Char × List Char))
  | text (content : List Char)
  | closing (name : List Char)
  deriving Repr, DecidableEq

/-! ## Content -/

/-- A text or value with its numbers normalized if asked for. -/
def normalized (numbers : Bool) (s : List Char) : List Char :=
  if numbers then normalizeNumber s else s

/-- Attributes in ascending order of their names. -/
def sortAttributes (attributes : List (List Char × List Char)) : List (List Char × List Char) :=
  (Dict.ofList (attributes.map fun (name, value) => (String.ofList name, value))).map
    fun (name, value) => (name.toList, value)

/-- What a reader has seen: the names of the open elements, innermost first, and whether there was
a root. -/
structure Progress where
  opened : List (List Char)
  seenRoot : Bool

/-- The item that opens an element. -/
def openingItem (numbers : Bool) (p : Progress) (content : List Char) : Except Flaw Item :=
  if p.opened = [] ∧ p.seenRoot then .error .severalRoots
  else match Tag.read? content with
    | none => .error .malformed
    | some tag => .ok (.opening tag.name
        (sortAttributes (tag.attributes.map fun (name, value) => (name, normalized numbers value))))

/-- The item of a text, if anything is left of it. -/
def textItem (numbers : Bool) (p : Progress) (s : List Char) : Except Flaw (List Item) :=
  match Text.trim s with
  | [] => .ok []
  | s => if p.opened = [] then .error .textOutside else .ok [.text (normalized numbers s)]

/-- The items of one token and what has been seen after it. -/
def step (numbers : Bool) (p : Progress) : Token → Except Flaw (List Item × Progress)
  | .opening content => do
    let item ← openingItem numbers p content
    return ([item], ⟨tagName content :: p.opened, true⟩)
  | .empty content => do
    let item ← openingItem numbers p content
    return ([item, .closing (tagName content)], ⟨p.opened, true⟩)
  | .closing name =>
    match p.opened with
    | expected :: rest =>
      if expected = name then .ok ([.closing name], ⟨rest, p.seenRoot⟩) else .error .malformed
    | [] => .error .malformed
  | .text raw =>
    match unescape raw with
    | none => .error .malformed
    | some s => (textItem numbers p s).map (·, p)
  | .cdata raw => (textItem numbers p raw).map (·, p)
  | .aside => .ok ([], p)
  | .broken => .error .malformed

/-- The items of the tokens of a document. -/
def itemsFrom (numbers : Bool) : Progress → List Token → Except Flaw (List Item)
  | p, [] =>
    if !p.seenRoot then .error .noRoot
    else if p.opened ≠ [] then .error .unclosed
    else .ok []
  | p, token :: rest => do
    let (items, p) ← step numbers p token
    let others ← itemsFrom numbers p rest
    return items ++ others

/-- The content of a document. -/
def items (numbers : Bool) (s : List Char) : Except Flaw (List Item) :=
  itemsFrom numbers ⟨[], false⟩ (tokens s)

/-! ## Writing -/

def renderAttribute : List Char × List Char → List Char
  | (name, value) => ' ' :: (name ++ '=' :: '"' :: (escape value ++ ['"']))

def renderItem : Item → List Char
  | .opening name attributes => '<' :: (name ++ attributes.flatMap renderAttribute ++ ['>'])
  | .text content => escape content
  | .closing name => '<' :: '/' :: (name ++ ['>'])

def render (items : List Item) : List Char := items.flatMap renderItem

/-- The canonical form of a document. -/
def canonicalChars (numbers : Bool) (s : List Char) : Except Flaw (List Char) :=
  (items numbers s).map render

/-- The canonical form of a document. -/
def canonical (numbers : Bool) (s : String) : Except Flaw String :=
  (canonicalChars numbers s.toList).map String.ofList

/-! ## The root element -/

/-- What a schema is checked against. -/
structure Root where
  /-- The name as written. -/
  name : String
  /-- The namespace that the tag binds to the prefix of its name, or by default. -/
  space : Option String
  /-- The last attribute that gives the location of schemas. -/
  location : Option String
  deriving Repr, DecidableEq

/-- The attribute that binds the prefix of a name, or the default namespace. -/
def bindingAttribute (name : List Char) : List Char :=
  match Text.splitAtFirst? ':' name with
  | some (pre, _) => "xmlns:".toList ++ pre
  | none => "xmlns".toList

/-- Whether an attribute gives the location of schemas, with any prefix or none. -/
def isLocation (name : List Char) : Bool :=
  name = "schemaLocation".toList || (Text.dropEnding? ":schemaLocation".toList name).isSome

/-- The root that an opening tag makes. An attribute that binds the namespace gives no location. -/
def rootOf (tag : Tag) : Root :=
  let binding := bindingAttribute tag.name
  let space := tag.attributes.find? fun a => a.1 = binding
  let locations := tag.attributes.filter fun a => a.1 ≠ binding && isLocation a.1
  { name := String.ofList tag.name
    space := space.map fun a => String.ofList a.2
    location := locations.getLast?.map fun a => String.ofList a.2 }

/-- The root among the tokens of a document. -/
def rootFrom : List Token → Except Flaw Root
  | [] => .error .noRoot
  | .opening content :: _ | .empty content :: _ =>
    match Tag.read? content with
    | some tag => .ok (rootOf tag)
    | none => .error .malformed
  | .closing _ :: _ | .broken :: _ => .error .malformed
  | .text _ :: rest | .cdata _ :: rest | .aside :: rest => rootFrom rest

/-- The root of a document. -/
def root (s : String) : Except Flaw Root := rootFrom (tokens s.toList)

end CachedRun.Xml
