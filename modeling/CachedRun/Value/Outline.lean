import CachedRun.Json.Reader
import CachedRun.Value.Document

/-!
# What is read of values

The document of a value may hold fields that mean nothing. Their content is passed over unread, so
it need only be well formed. The outlines here say for each kind of object what is left: the fields
that mean something.

The content of a value is passed over in the same way if it is known what the fields of the content
mean, that is, if the binding comes before it. Otherwise all of the content is read first.
-/

set_option autoImplicit false

namespace CachedRun

open Json (Letters Unread)

/-- A box: its corners and its reference system. -/
def BoundingBox.outline : Unread → Unread := Unread.keeping ["lowerCorner", "upperCorner", "crs"]

/-- A layer: its parts. -/
def Shapefile.outline : Unread → Unread := Unread.keeping ["parts"]

namespace Value

/-- The content of a value of a binding. -/
def contentOutline (binding : Option Binding) (content : Unread) : Unread :=
  match binding with
  | some .bbox => BoundingBox.outline content
  | some .shapefile => Shapefile.outline content
  | _ => content

/-- The binding that a document names. -/
def namedBinding? (name : Unread) : Option Binding :=
  name.value?.bind fun j => (bindingOfJson j).toOption

/-- The fields of a value behind the fields that have named its binding. -/
def fieldOutlines (binding : Option Binding) :
    List (Letters × Unread) → List (Letters × Unread)
  | [] => []
  | (name, content) :: rest =>
    match name.text? with
    | some "type" => (name, content) :: fieldOutlines (namedBinding? content) rest
    | some "value" => (name, contentOutline binding content) :: fieldOutlines binding rest
    | _ => (name, .null) :: fieldOutlines binding rest

/-- A value: its binding and its content. -/
def outline : Unread → Unread
  | .object fields => .object (fieldOutlines none fields)
  | .array (name :: content :: rest) =>
    .array (name :: contentOutline (namedBinding? name) content :: rest)
  | document => document

/-- Reads a value from a text. -/
def read? (s : String) : Option Value := (Json.readAs? outline s).bind ofJson?

end Value

end CachedRun
