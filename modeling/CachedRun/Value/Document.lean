import CachedRun.Json.Mismatch
import CachedRun.Value

/-!
# Values in documents

Documents hold a value as a JSON object with the name of its binding under `type` and its content
under `value`. Bytes are arrays of numbers, a box and a layer are objects, and a number that is not
finite is `null`.

`Value.toJson` writes this form. `Value.ofJson` reads more than is written: fields in any order
and among unknown ones, but none of its own twice; arrays with the fields in their order in place
of objects; times as people write them; and, in an object, the name of the binding also as an object
whose single field has that name and no content.
-/

set_option autoImplicit false

namespace CachedRun

namespace Json

def ofBytes (b : Bytes) : Json := .array (b.map fun byte => .integer byte.toNat)

def ofPair (p : Double × Double) : Json := .array [.double p.1, .double p.2]

end Json

/-- A box as an object; a reference system that is not given is left out. -/
def BoundingBox.toJson (box : BoundingBox) : Json :=
  .object ([("lowerCorner", Json.ofPair box.lower), ("upperCorner", Json.ofPair box.upper)]
    ++ match box.crs with
      | some crs => [("crs", .string crs)]
      | none => [])

/-- A text or `null`. -/
def readOptionalText : Json → Except Json.Mismatch (Option String)
  | .null => .ok none
  | j => j.asText.map some

/-- Reads a box from an object or from an array of its parts. -/
def BoundingBox.ofJson : Json → Except Json.Mismatch BoundingBox
  | .object fields => do
    let crs ← match ← Json.optionalField "crs" fields with
      | some crs => readOptionalText crs
      | none => .ok none
    let lower ← (← Json.requiredField "lowerCorner" fields).asPair
    let upper ← (← Json.requiredField "upperCorner" fields).asPair
    return ⟨lower, upper, crs⟩
  | .array (lower :: upper :: rest) => do
    let lower ← lower.asPair
    let upper ← upper.asPair
    let crs ← match rest with
      | crs :: _ => readOptionalText crs
      | [] => .ok none
    Json.noMore (rest.length + 2) (rest.drop 1)
    return ⟨lower, upper, crs⟩
  | .array few => do
    let _ ← few.mapM Json.asPair
    throw (.length few.length "struct BoundingBox with 3 elements")
  | j => j.refuse "struct BoundingBox"

def Shapefile.toJson (layer : Shapefile) : Json :=
  .object [("parts", .object (layer.parts.map fun (name, content) => (name, Json.ofBytes content)))]

/-- Reads the files of a layer; of several with one extension the last counts. -/
def Shapefile.ofParts : Json → Except Json.Mismatch Shapefile
  | .object fields => do
    let files ← fields.mapM fun (name, content) => content.asBytes.map fun b => (name, b)
    return ⟨Dict.ofList files⟩
  | j => j.refuse "a map"

/-- Reads a layer from an object or from an array with its one part. -/
def Shapefile.ofJson : Json → Except Json.Mismatch Shapefile
  | .object fields => do Shapefile.ofParts (← Json.requiredField "parts" fields)
  | .array [] => .error (.length 0 "struct Shapefile with 1 element")
  | .array (parts :: rest) => do
    let layer ← Shapefile.ofParts parts
    Json.noMore (rest.length + 1) rest
    return layer
  | j => j.refuse "struct Shapefile"

namespace Value

/-- The content of a value, without its binding. -/
def contentJson : Value → Json
  | .string s | .xml s | .quakeml s | .nrml s | .shakemap s => .string s
  | .int i => .integer i
  | .double d => .double d
  | .boolean b => .bool b
  | .datetime t => .string (Time.toShortest t)
  | .bbox box => box.toJson
  | .geotiff b | .file b => Json.ofBytes b
  | .geojson j | .json j => j
  | .shapefile layer => layer.toJson

/-- The form that documents hold. -/
def toJson (v : Value) : Json :=
  .object [("type", .string v.binding.key), ("value", v.contentJson)]

/-- The range of integer values. -/
def leastInt : Int := -2147483648

def greatestInt : Int := 2147483647

/-- Reads a time as people write it. -/
def readTime (j : Json) : Except Json.Mismatch Instant :=
  match j with
  | .string s =>
    match Time.readRelaxed s.toList with
    | some t => .ok t
    | none => .error (.unreadable "input contains invalid characters")
  | j => j.refuse "an RFC 3339 formatted date and time string"

/-- Reads the content of a value of a binding. -/
def ofContent (binding : Binding) (j : Json) : Except Json.Mismatch Value :=
  match binding with
  | .string => j.asText.map .string
  | .int => (j.asInt leastInt greatestInt "i32").map .int
  | .double => j.asDouble.map .double
  | .boolean => j.asBool.map .boolean
  | .datetime => (readTime j).map .datetime
  | .bbox => (BoundingBox.ofJson j).map .bbox
  | .xml => j.asText.map .xml
  | .geotiff => j.asBytes.map .geotiff
  | .geojson => .ok (.geojson j.canonical)
  | .shapefile => (Shapefile.ofJson j).map .shapefile
  | .file => j.asBytes.map .file
  | .quakeml => j.asText.map .quakeml
  | .nrml => j.asText.map .nrml
  | .shakemap => j.asText.map .shakemap
  | .json => .ok (.json j.canonical)

/-- The binding of a name. -/
def bindingOfKey (key : String) : Except Json.Mismatch Binding :=
  match Binding.ofKey? key with
  | some binding => .ok binding
  | none => .error (.unknown key (Binding.all.map Binding.key))

/-- Reads the name of a binding where it must be a text. -/
def bindingOfText : Json → Except Json.Mismatch Binding
  | .string key => bindingOfKey key
  | j => j.refuse "variant identifier"

/-- Reads the name of a binding. -/
def bindingOfJson : Json → Except Json.Mismatch Binding
  | .string key => bindingOfKey key
  | .object [(key, content)] => do
    let binding ← bindingOfKey key
    match content with
    | .null => return binding
    | j => j.refuse "unit"
  | .object _ => .error (.content (Json.object []).shown "map with a single key")
  | j => j.refuse "string or map"

/-- Reads a value from an object or from an array of binding and content. -/
def ofJson : Json → Except Json.Mismatch Value
  | .object fields => do
    let binding ← bindingOfJson (← Json.requiredField "type" fields)
    ofContent binding (← Json.requiredField "value" fields)
  | .array (binding :: content :: rest) => do
    let v ← ofContent (← bindingOfText binding) content
    Json.noMore (rest.length + 2) rest
    return v
  | .array few => do
    let _ ← few.mapM bindingOfText
    throw (.length few.length "adjacently tagged enum Data")
  | j => j.refuse "adjacently tagged enum Data"

/-- Reads a value, if it is one. -/
def ofJson? (j : Json) : Option Value := (ofJson j).toOption

end Value

end CachedRun
