import CachedRun.Binding
import CachedRun.Dict
import CachedRun.Handler

/-!
# The registry of options

A configuration names its handlers; the registry says what the names mean. Names may be added or
replaced, by any check of the slot. The name `ignore` stands for no handler at all.

Which bindings each delivery and each collection takes is fixed.
-/

set_option autoImplicit false

namespace CachedRun

/-- The checks by name, for each slot. A name without a check stands for no handler. -/
structure Registry where
  stderr : Dict (Option StderrCheck)
  exitValue : Dict (Option ExitCheck)
  stdout : Dict (Option StdoutCheck)

namespace Registry

/-- The names that are always there. -/
def default : Registry where
  stderr := Dict.ofList [("ignore", none), ("logging", some .log),
    ("errorIfNotEmpty", some .notEmpty), ("pythonTraceback", some .traceback),
    ("rError", some .errorLine)]
  exitValue := Dict.ofList [("ignore", none), ("logging", some .log),
    ("errorIfNotZero", some .notZero)]
  stdout := Dict.ofList [("ignore", none), ("logging", some .log)]

def registerStderr (r : Registry) (name : String) (check : StderrCheck) : Registry :=
  { r with stderr := r.stderr.insert name (some check) }

def registerExitValue (r : Registry) (name : String) (check : ExitCheck) : Registry :=
  { r with exitValue := r.exitValue.insert name (some check) }

def registerStdout (r : Registry) (name : String) (check : StdoutCheck) : Registry :=
  { r with stdout := r.stdout.insert name (some check) }

/-- Creates the handler of a name. -/
def create {κ : Type} (table : Dict (Option κ)) (slot : Slot) (name : String) :
    Except Fault (Option (Handler κ)) :=
  match table.find? name with
  | some (some check) => .ok (some ⟨name, check⟩)
  | some none => .ok none
  | none => .error (.unknownHandler slot.key name)

def stderrHandler (r : Registry) (name : String) : Except Fault (Option (Handler StderrCheck)) :=
  create r.stderr .stderr name

def exitValueHandler (r : Registry) (name : String) : Except Fault (Option (Handler ExitCheck)) :=
  create r.exitValue .exitValue name

def stdoutHandler (r : Registry) (name : String) : Except Fault (Option (Handler StdoutCheck)) :=
  create r.stdout .stdout name

/-- The names of a slot, in ascending order. -/
def names (r : Registry) : Slot → List String
  | .stderr => r.stderr.keys
  | .exitValue => r.exitValue.keys
  | .stdout => r.stdout.keys

/-- Whether a name is known in a slot. -/
def knows (r : Registry) (slot : Slot) (name : String) : Bool :=
  match slot with
  | .stderr => r.stderr.contains name
  | .exitValue => r.exitValue.contains name
  | .stdout => r.stdout.contains name

end Registry

/-- The bindings that a delivery takes, by its name. -/
def inputBindings (delivery : String) : List Binding :=
  if delivery = "commandLineArgument" then
    [.int, .double, .boolean, .string, .datetime, .bbox, .xml, .geotiff, .geojson, .shapefile,
      .file, .quakeml, .nrml, .json]
  else if delivery = "stdin" then [.string, .json, .xml]
  else if delivery = "file" then
    [.xml, .geotiff, .geojson, .shapefile, .file, .quakeml, .shakemap, .nrml, .json]
  else []

/-- The bindings that a collection takes, by its name. -/
def outputBindings (collection : String) : List Binding :=
  if collection = "stdout" then [.string, .xml, .quakeml, .shakemap, .json, .geojson]
  else if collection = "stderr" then [.string, .json]
  else if collection = "exitValue" then [.int]
  else if collection = "files" then
    [.xml, .file, .geojson, .geotiff, .shapefile, .quakeml, .nrml, .shakemap, .json]
  else []

end CachedRun
