import CachedRun.Fault
import CachedRun.Value.Outline
import CachedRun.Xml.Canonical

/-!
# Conversions

A value enters as the bytes of a stream or a file (`Value.ofBytes`, `Value.ofFiles`) and leaves as
bytes, as files, or as words of a command line (`Value.toBytes`, `Value.toFiles`,
`Value.arguments`).

What leaves is always the canonical form: XML without its layout, JSON with its names in order,
numbers and times in one spelling. Keys are made from it too, so a program sees the same bytes for
all values that share a key.
-/

set_option autoImplicit false

namespace CachedRun

/-- A conversion fault of a binding. -/
def Fault.cannotConvert (binding : Binding) (reason : String) : Fault :=
  .conversion binding.key reason

/-! ## From bytes -/

/-- Reads bytes as text of a binding. -/
def readText (binding : Binding) (b : Bytes) : Except Fault String :=
  (Text.decode b).mapError fun flaw => .cannotConvert binding flaw.message

/-- Reads bytes as a number of a binding; the fault shows the text. -/
def readNumeral {α : Type} (binding : Binding) (read : List Char → Except Decimal.Flaw α)
    (b : Bytes) : Except Fault α := do
  let s := Text.trimmed (← readText binding b)
  (read s.toList).mapError fun flaw => .cannotConvert binding s!"'{s}': {flaw.message}"

/-- Reads bytes as a document that has a canonical form; the document itself is kept. -/
def readDocument (binding : Binding) (b : Bytes) : Except Fault String := do
  let s ← readText binding b
  let _ ← (Xml.canonical binding.isValidatedXml s).mapError fun flaw =>
    .cannotConvert binding flaw.message
  return s

/-- Reads bytes as JSON. -/
def readJson (binding : Binding) (b : Bytes) : Except Fault Json :=
  match Json.readBytes? b with
  | some j => .ok j
  | none => .error (.cannotConvert binding "not a JSON document")

/-- The kinds of GeoJSON objects. -/
def geoJsonKinds : List String :=
  ["FeatureCollection", "Feature", "Point", "MultiPoint", "LineString", "MultiLineString",
    "Polygon", "MultiPolygon", "GeometryCollection"]

/-- Checks that a canonical JSON value is an object of one of the kinds of GeoJSON. -/
def checkGeoJson (j : Json) : Except Fault Unit :=
  match (j.get? "type").bind Json.text? with
  | none => .error (.cannotConvert .geojson "GeoJSON object without 'type'")
  | some kind =>
    if kind ∈ geoJsonKinds then .ok ()
    else .error (.cannotConvert .geojson s!"'{kind}' is not a GeoJSON type")

/-- The two byte orders of a TIFF header. -/
def isTiff (b : Bytes) : Bool :=
  b.take 4 = [0x49, 0x49, 0x2A, 0] || b.take 4 = [0x4D, 0x4D, 0, 0x2A]

namespace Value

/-- Reads bytes as a value of a binding. -/
def ofBytes (binding : Binding) (b : Bytes) : Except Fault Value :=
  match binding with
  | .string => (readText .string b).map .string
  | .int => (readNumeral .int (Decimal.readInt 2147483648 2147483647) b).map .int
  | .double => (readNumeral .double Decimal.readDouble b).map .double
  | .boolean => do
    let s := Text.trimmed (← readText .boolean b)
    if s = "true" then return .boolean true
    else if s = "false" then return .boolean false
    else throw (.cannotConvert .boolean s!"'{s}' is not a boolean")
  | .datetime => do
    let s := Text.trimmed (← readText .datetime b)
    match Time.readStrict s.toList with
    | some t => return .datetime t
    | none => throw (.cannotConvert .datetime s!"'{s}': not a date and time")
  | .bbox => do
    let s ← readText .bbox b
    match (Json.readAs? BoundingBox.outline s).map BoundingBox.ofJson with
    | some (.ok box) => return .bbox box
    | some (.error flaw) => throw (.cannotConvert .bbox flaw.message)
    | none => throw (.cannotConvert .bbox "not a JSON document")
  | .xml => (readDocument .xml b).map .xml
  | .quakeml => (readDocument .quakeml b).map .quakeml
  | .nrml => (readDocument .nrml b).map .nrml
  | .shakemap => (readDocument .shakemap b).map .shakemap
  | .json => (readJson .json b).map fun j => .json j.canonical
  | .geojson => do
    let j := (← readJson .geojson b).canonical
    checkGeoJson j
    return .geojson j
  | .geotiff =>
    if isTiff b then .ok (.geotiff b) else .error (.cannotConvert .geotiff "missing TIFF header")
  | .shapefile =>
    if b = [] then .error (.cannotConvert .shapefile "empty .shp file")
    else .ok (.shapefile ⟨[("shp", b)]⟩)
  | .file => .ok (.file b)

/-! ## To bytes -/

/-- The canonical form of a document of a binding. -/
def canonicalDocument (binding : Binding) (document : String) : Except Fault String :=
  (Xml.canonical binding.isValidatedXml document).mapError fun flaw =>
    .cannotConvert binding flaw.message

/-- The canonical text of a value; a value that is no text is refused. -/
def text : Value → Except Fault String
  | .string s => .ok s
  | .int i => .ok (String.ofList (Decimal.intText i))
  | .double d => .ok (Decimal.literalText d)
  | .boolean b => .ok (if b then "true" else "false")
  | .datetime t => .ok (Time.toMillis t)
  | .bbox box => .ok box.toJson.compact
  | .xml s => canonicalDocument .xml s
  | .quakeml s => canonicalDocument .quakeml s
  | .nrml s => canonicalDocument .nrml s
  | .shakemap s => canonicalDocument .shakemap s
  | .json j | .geojson j => .ok j.compact
  | v@(.geotiff _) | v@(.shapefile _) | v@(.file _) =>
    .error (.cannotConvert v.binding "binary content can only be passed as a file path")

/-- The main file of a layer. -/
def mainFile (layer : Shapefile) : Except Fault Bytes :=
  match layer.main? with
  | some content => .ok content
  | none => .error (.cannotConvert .shapefile "shapefile without .shp part")

/-- The canonical bytes of a value; of a layer, its main file. -/
def toBytes : Value → Except Fault Bytes
  | .geotiff b | .file b => .ok b
  | .shapefile layer => mainFile layer
  | v => v.text.map Text.bytes

end Value

/-! ## Files -/

/-- The path of a file that belongs to a layer: its extension takes the place of a `.shp` at the
end, or is added. -/
def sidecarPath (path extension : String) : String :=
  match Text.dropEnding? ".shp".toList path.toList with
  | some stem => String.ofList stem ++ "." ++ extension
  | none => if extension = "shp" then path else path ++ "." ++ extension

/-- The paths that a value of a binding may occupy. -/
def outputPaths (binding : Binding) (path : String) : List String :=
  if binding = .shapefile then Shapefile.extensions.map (sidecarPath path) else [path]

namespace Value

/-- The files that a value is written to: one, or those of a layer. -/
def toFiles (v : Value) (path : String) : Except Fault (List (String × Bytes)) :=
  match v with
  | .shapefile layer => do
    let _ ← mainFile layer
    return layer.parts.map fun (extension, content) => (sidecarPath path extension, content)
  | v => v.toBytes.map fun b => [(path, b)]

/-- Reads the files of a layer that exist. -/
def readParts {m : Type → Type} [Monad m] (read : String → m (Option Bytes)) (path : String) :
    List String → m (Dict Bytes)
  | [] => pure []
  | extension :: rest => do
    let content ← read (sidecarPath path extension)
    let others ← readParts read path rest
    return match content with
      | some b => others.insert extension b
      | none => others

/-- Reads a value from its files. The reader gives the content of a path, or nothing if there is no
such file. -/
def ofFiles {m : Type → Type} [Monad m] (binding : Binding) (path : String)
    (read : String → m (Option Bytes)) : m (Except Fault Value) := do
  let missing : Fault := .cannotConvert binding s!"file '{path}' not found"
  if binding = .shapefile then
    let parts ← readParts read path Shapefile.extensions
    return if (Shapefile.main? ⟨parts⟩).isNone then .error missing else .ok (.shapefile ⟨parts⟩)
  else
    match ← read path with
    | none => return .error missing
    | some content => return ofBytes binding content

/-! ## Command lines -/

/-- A flag, if there is one, before other words. -/
def flagged (flag : Option String) (words : List String) : List String := flag.toList ++ words

/-- The words of a value on a command line. A truth value with a flag is the flag or nothing, and a
box is its longitudes before its latitudes. -/
def arguments (v : Value) (flag : Option String) : Except Fault (List String) :=
  match v, flag with
  | .boolean b, some flag => .ok (if b then [flag] else [])
  | .bbox box, flag =>
    .ok (flagged flag ([box.lower.2, box.upper.2, box.lower.1, box.upper.1].map
      Decimal.literalText))
  | v, flag => v.text.map fun s => flagged flag [s]

/-- The words of a path on a command line. -/
def pathArguments (path : String) (flag : Option String) : List String := flagged flag [path]

end Value

end CachedRun
