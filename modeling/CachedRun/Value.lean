import CachedRun.Binding
import CachedRun.Json.Writer
import CachedRun.Text.Utf8
import CachedRun.Time.Rfc3339
import CachedRun.Total

/-!
# Values

A value is what a request supplies for a parameter, or what a run produces for one. Values and
declarations are kept apart: a configuration is built without any values, and a value is checked
against a declaration before it is delivered.
-/

set_option autoImplicit false

namespace CachedRun

/-- A box on the map with corners `(latitude, longitude)`. -/
structure BoundingBox where
  lower : Double × Double
  upper : Double × Double
  /-- The coordinate reference system. -/
  crs : Option String
  deriving Repr, DecidableEq

/-- A map layer as a set of files, by extension. The one with the extension `shp` is the main
file. -/
structure Shapefile where
  parts : Dict Bytes
  deriving Repr, DecidableEq

/-- The content of the main file. -/
def Shapefile.main? (s : Shapefile) : Option Bytes := s.parts.find? "shp"

/-- The extensions that make up a layer in a directory, the main one first. -/
def Shapefile.extensions : List String := ["shp", "shx", "dbf", "prj"]

/-- A value of a parameter. -/
inductive Value where
  | string (text : String)
  | int (value : Int)
  | double (value : Double)
  | boolean (value : Bool)
  | datetime (time : Instant)
  | bbox (box : BoundingBox)
  | xml (document : String)
  | geotiff (content : Bytes)
  | geojson (value : Json)
  | shapefile (layer : Shapefile)
  | file (content : Bytes)
  | quakeml (document : String)
  | nrml (document : String)
  | shakemap (document : String)
  | json (value : Json)
  deriving Repr, Inhabited

namespace Value

/-- The binding that a value belongs to. -/
def binding : Value → Binding
  | .string _ => .string
  | .int _ => .int
  | .double _ => .double
  | .boolean _ => .boolean
  | .datetime _ => .datetime
  | .bbox _ => .bbox
  | .xml _ => .xml
  | .geotiff _ => .geotiff
  | .geojson _ => .geojson
  | .shapefile _ => .shapefile
  | .file _ => .file
  | .quakeml _ => .quakeml
  | .nrml _ => .nrml
  | .shakemap _ => .shakemap
  | .json _ => .json

/-- The text of a value with a literal binding. -/
def literalText? : Value → Option String
  | .string text => some text
  | .int value => some (String.ofList (Decimal.intText value))
  | .double value => some (Decimal.literalText value)
  | .boolean true => some "true"
  | .boolean false => some "false"
  | .datetime time => some (Time.toMillis time)
  | _ => none

/-- The document of a value with an XML binding. -/
def document? : Value → Option String
  | .xml document | .quakeml document | .nrml document | .shakemap document => some document
  | _ => none

/-- The size of a value in bytes, as a cache counts it. Numbers, truth values and times count as 8
and a box as 32. -/
def weight : Value → Nat
  | .string s | .xml s | .quakeml s | .nrml s | .shakemap s => s.utf8ByteSize
  | .geotiff b | .file b => b.length
  | .shapefile layer => total (layer.parts.map fun part => part.2.length)
  | .geojson j | .json j => j.compact.utf8ByteSize
  | .int _ | .double _ | .boolean _ | .datetime _ => 8
  | .bbox _ => 32

end Value

/-- The values of a request: for each input the ones supplied, of which the first counts. -/
abbrev Inputs := List (String × List Value)

/-- The value that counts for an input. -/
def Inputs.first? (inputs : Inputs) (id : String) : Option Value :=
  (inputs.find? fun entry => entry.1 = id).bind fun entry => entry.2.head?

/-- The values that a run produced, by output. -/
abbrev Outputs := Dict Value

end CachedRun
