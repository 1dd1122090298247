import CachedRun.Json.Token

/-!
# Documents before they are read

An `Unread` document is known by its structure: its strings and numerals are well formed, and
nothing more is known of them. Its `value?` reads all of it, and then every numeral must be in
range, every string a text, and containers at most 127 deep.

Who needs only some fields of a document takes an *outline* of it first, the same document with
`null` in every field that is not needed. What stood there is not read, so it may be of any depth
and hold numbers and strings that cannot be kept. The names of the fields stay, and are read.
-/

set_option autoImplicit false

namespace CachedRun.Json

/-- A document of which only the structure is known. -/
inductive Unread where
  | null
  | bool (value : Bool)
  | number (numeral : Numeral)
  | string (letters : Letters)
  | array (items : List Unread)
  | object (fields : List (Letters × Unread))
  deriving Repr, Inhabited

namespace Unread

/-! ## Reading -/

mutual

/-- The value of a document whose containers are at most as deep as the number says. -/
def valueWithin? : Nat → Unread → Option Json
  | _, .null => some .null
  | _, .bool b => some (.bool b)
  | _, .number n => n.value?
  | _, .string s => s.text?.map .string
  | 0, .array _ => none
  | 0, .object _ => none
  | room + 1, .array items => (itemsWithin? room items).map .array
  | room + 1, .object fields => (fieldsWithin? room fields).map .object
termination_by structural _ document => document

def itemsWithin? : Nat → List Unread → Option (List Json)
  | _, [] => some []
  | room, item :: rest => do
    let item ← valueWithin? room item
    let rest ← itemsWithin? room rest
    return item :: rest
termination_by structural _ items => items

def fieldsWithin? : Nat → List (Letters × Unread) → Option (List (String × Json))
  | _, [] => some []
  | room, (name, content) :: rest => do
    let name ← name.text?
    let content ← valueWithin? room content
    let rest ← fieldsWithin? room rest
    return (name, content) :: rest
termination_by structural _ fields => fields

end

/-- The number of containers that may lie in each other. -/
def depthLimit : Nat := 127

/-- The value of a document. -/
def value? (document : Unread) : Option Json := document.valueWithin? depthLimit

/-! ## Outlines -/

/-- An object with other contents in its fields. A name that is no text makes the object unreadable
whatever its content is. -/
def mapFields (content : String → Unread → Unread) : Unread → Unread
  | .object fields =>
    .object (fields.map fun (name, old) =>
      match name.text? with
      | some n => (name, content n old)
      | none => (name, old))
  | document => document

/-- An object with `null` in all fields but some. -/
def keeping (names : List String) : Unread → Unread :=
  mapFields fun name content => if name ∈ names then content else .null

end Unread

end CachedRun.Json
