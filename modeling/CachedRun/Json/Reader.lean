import CachedRun.Json.Unread

/-!
# Reading JSON

The reader is a machine that takes one token at a time. It keeps a stack of the containers that are
open, innermost first, and what may come next; a value that is complete goes to the innermost
container. A document is well formed if the machine ends with one value and no open container, so
neither trailing text nor an unclosed bracket passes.

The machine ends with an `Unread` document, and `readAs?` reads an outline of it.
-/

set_option autoImplicit false

namespace CachedRun.Json

/-- An open container with what it holds so far, last first. -/
inductive Frame where
  | items (done : List Unread)
  | fields (done : List (Letters × Unread))
  /-- An object whose field of this name is being read. -/
  | field (done : List (Letters × Unread)) (name : Letters)

/-- What may come next. -/
inductive Stage where
  | value
  /-- After an opening bracket: a value or the closing one. -/
  | itemOrEnd
  /-- After an opening brace: a name or the closing one. -/
  | nameOrEnd
  | name
  | colon
  /-- After a value inside a container: a comma or the closing bracket. -/
  | next
  /-- Nothing: the value is complete. -/
  | complete (value : Unread)

structure State where
  stack : List Frame
  stage : Stage

def State.start : State := ⟨[], .value⟩

/-- Gives a complete value to the innermost container. -/
def deliver (value : Unread) : List Frame → Option State
  | [] => some ⟨[], .complete value⟩
  | .items done :: stack => some ⟨.items (value :: done) :: stack, .next⟩
  | .field done name :: stack => some ⟨.fields ((name, value) :: done) :: stack, .next⟩
  | .fields _ :: _ => none

/-- The token that starts a value. -/
def startValue (stack : List Frame) : Token → Option State
  | .null => deliver .null stack
  | .bool b => deliver (.bool b) stack
  | .string s => deliver (.string s) stack
  | .number n => deliver (.number n) stack
  | .openArray => some ⟨.items [] :: stack, .itemOrEnd⟩
  | .openObject => some ⟨.fields [] :: stack, .nameOrEnd⟩
  | _ => none

def State.step (s : State) (token : Token) : Option State :=
  match s.stage, token, s.stack with
  | .value, t, stack => startValue stack t
  | .itemOrEnd, .closeArray, .items done :: stack => deliver (.array done.reverse) stack
  | .itemOrEnd, t, stack => startValue stack t
  | .nameOrEnd, .closeObject, .fields done :: stack => deliver (.object done.reverse) stack
  | .nameOrEnd, .string n, .fields done :: stack => some ⟨.field done n :: stack, .colon⟩
  | .name, .string n, .fields done :: stack => some ⟨.field done n :: stack, .colon⟩
  | .colon, .colon, stack => some ⟨stack, .value⟩
  | .next, .comma, .items done :: stack => some ⟨.items done :: stack, .value⟩
  | .next, .comma, .fields done :: stack => some ⟨.fields done :: stack, .name⟩
  | .next, .closeArray, .items done :: stack => deliver (.array done.reverse) stack
  | .next, .closeObject, .fields done :: stack => deliver (.object done.reverse) stack
  | _, _, _ => none

/-- The document of a list of tokens. -/
def Unread.ofTokens? (tokens : List Token) : Option Unread :=
  match tokens.foldlM State.step State.start with
  | some ⟨_, .complete document⟩ => some document
  | _ => none

/-- The document at the places of a text. -/
def Unread.ofPlaces? (s : List Text.Place) : Option Unread := (tokens s).bind Unread.ofTokens?

/-- The value that a text spells, as far as an outline goes. -/
def readAs? (outline : Unread → Unread) (s : String) : Option Json :=
  (Unread.ofPlaces? (Text.placesOf s)).bind fun document => (outline document).value?

/-- The value that bytes spell, as far as an outline goes. Beyond it they need not be text. -/
def readBytesAs? (outline : Unread → Unread) (b : Bytes) : Option Json :=
  (Unread.ofPlaces? (Text.places b)).bind fun document => (outline document).value?

/-- The value that a text spells. -/
def read? (s : String) : Option Json := readAs? id s

/-- The value that bytes spell. -/
def readBytes? (b : Bytes) : Option Json := readBytesAs? id b

/- Half a character stands in a field: a reader that needs the field refuses it, and one that
does not passes over it. -/
example : (read? "\x7b\"a\":\"\\ud800\"\x7d").isNone = true := by decide +kernel
example : (readAs? (.keeping ["b"]) "\x7b\"a\":\"\\ud800\"\x7d").isSome = true := by
  decide +kernel

/-- The bytes of a text spell what the text spells. -/
theorem readBytesAs?_bytes (outline : Unread → Unread) (s : String) :
    readBytesAs? outline (Text.bytes s) = readAs? outline s := by
  simp [readBytesAs?, readAs?, Text.places_bytes]

end CachedRun.Json
