import CachedRun.Decimal.Layout
import CachedRun.Dict

/-!
# JSON values

A JSON value is kept as it was written: an object lists its fields in the order of the document and
may list one name twice. What a reader of the value sees is its `canonical` form, in which every
object is an ordered table and the last of several fields of one name has won.

Numbers are of two kinds, and the kind is part of the value: an integer between `-2^63` and
`2^64 - 1` that is written without point and exponent stays an integer, and everything else is a
double.
-/

set_option autoImplicit false

namespace CachedRun

/-- A JSON value as written. -/
inductive Json where
  | null
  | bool (value : Bool)
  | integer (value : Int)
  | double (value : Double)
  | string (text : String)
  | array (items : List Json)
  | object (fields : List (String × Json))
  deriving Repr, Inhabited

namespace Json

mutual

/-- The value with every object as an ordered table. -/
def canonical : Json → Json
  | .array items => .array (canonicalItems items)
  | .object fields => .object (Dict.ofList (canonicalFields fields))
  | .null => .null
  | .bool b => .bool b
  | .integer i => .integer i
  | .double d => .double d
  | .string s => .string s
termination_by structural j => j

def canonicalItems : List Json → List Json
  | [] => []
  | item :: rest => canonical item :: canonicalItems rest
termination_by structural items => items

def canonicalFields : List (String × Json) → List (String × Json)
  | [] => []
  | (name, value) :: rest => (name, canonical value) :: canonicalFields rest
termination_by structural fields => fields

end

/-- The fields of an object, or nothing. -/
def fields? : Json → Option (List (String × Json))
  | .object fields => some fields
  | _ => none

/-- The items of an array, or nothing. -/
def items? : Json → Option (List Json)
  | .array items => some items
  | _ => none

/-- The text of a string, or nothing. -/
def text? : Json → Option String
  | .string s => some s
  | _ => none

/-- The field of a name in a canonical object. -/
def get? (name : String) : Json → Option Json
  | .object fields => Dict.find? name fields
  | _ => none

/-- A field that may be there once: `ok none` if it is missing, and an error if it is there
twice. -/
def once? (name : String) (fields : List (String × Json)) : Option (Option Json) :=
  match fields.filter fun field => field.1 = name with
  | [] => some none
  | [(_, value)] => some (some value)
  | _ => none

end Json

end CachedRun
