/-!
# Bindings

A binding is the declared kind of a parameter. It fixes how values are read and written, which
MIME type and schema a parameter has if it declares none, and the extension of generated file names.
-/

set_option autoImplicit false

namespace CachedRun

/-- The declared kind of a parameter. -/
inductive Binding where
  | string
  | int
  | double
  | boolean
  | datetime
  | bbox
  | xml
  | geotiff
  | geojson
  | shapefile
  | file
  | quakeml
  | nrml
  | shakemap
  | json
  deriving Repr, DecidableEq, Inhabited

namespace Binding

/-- All bindings, in the order of the configuration vocabulary. -/
def all : List Binding :=
  [.string, .int, .double, .boolean, .datetime, .bbox, .xml, .geotiff, .geojson, .shapefile, .file,
    .quakeml, .nrml, .shakemap, .json]

/-- The name used in documents, keys and messages. -/
def key : Binding → String
  | .string => "string"
  | .int => "int"
  | .double => "double"
  | .boolean => "boolean"
  | .datetime => "datetime"
  | .bbox => "bbox"
  | .xml => "xml"
  | .geotiff => "geotiff"
  | .geojson => "geojson"
  | .shapefile => "shapefile"
  | .file => "file"
  | .quakeml => "quakeml"
  | .nrml => "nrml"
  | .shakemap => "shakemap"
  | .json => "json"

/-- The binding of a name. -/
def ofKey? (key : String) : Option Binding := all.find? fun b => b.key = key

theorem ofKey?_key (b : Binding) : ofKey? b.key = some b := by cases b <;> decide

/-- Bindings whose values are a single scalar. -/
def isLiteral : Binding → Bool
  | .string | .int | .double | .boolean | .datetime => true
  | _ => false

/-- Bindings whose values are XML documents. -/
def isXml : Binding → Bool
  | .xml | .quakeml | .nrml | .shakemap => true
  | _ => false

/-- XML bindings with a fixed vocabulary, in which numbers are normalized. -/
def isValidatedXml : Binding → Bool
  | .quakeml | .nrml | .shakemap => true
  | _ => false

/-- The MIME type of a parameter that declares none. -/
def defaultFormat? : Binding → Option String
  | .string => some "text/plain"
  | .xml | .quakeml | .nrml | .shakemap => some "text/xml"
  | .geojson => some "application/vnd.geo+json"
  | .geotiff => some "image/geotiff"
  | .shapefile => some "application/x-zipped-shp"
  | .json => some "application/json"
  | .file => some "application/octet-stream"
  | .int | .double | .boolean | .datetime | .bbox => none

/-- The schema of a parameter that declares none. -/
def defaultSchema? : Binding → Option String
  | .quakeml => some "http://quakeml.org/xmlns/quakeml/1.2/QuakeML-1.2.xsd"
  | .shakemap => some "http://earthquake.usgs.gov/eqcenter/shakemap/xml/schemas/shakemap.xsd"
  | .nrml => some "http://openquake.org/xmlns/nrml/0.4"
  | _ => none

/-- The extension of generated file names. -/
def extension : Binding → String
  | .xml | .quakeml | .nrml | .shakemap => "xml"
  | .geotiff => "tiff"
  | .geojson | .json => "json"
  | .shapefile => "shp"
  | .string => "txt"
  | .int | .double | .boolean | .datetime | .bbox | .file => "dat"

end Binding

end CachedRun
