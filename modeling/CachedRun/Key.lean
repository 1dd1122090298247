import CachedRun.Configuration
import CachedRun.Key.Field

/-!
# Cache keys

Requests with one key have one result. So a key is made from everything that a result depends on:
the description of the process, the environment it runs in, the values of the request and the set of
outputs asked for. It is made from nothing else: generated file names, for instance, differ from run
to run and stay out, as do the paths of files that the program is told on its command line.

Values enter in their canonical form. Of the values given for one input only the first counts.
-/

set_option autoImplicit false

namespace CachedRun.Key

/-- What a result depends on beyond the configuration and the request. -/
structure Environment where
  /-- The identity of the image, if it is known. -/
  imageId : Option String
  runnerVersion : Option String
  serviceVersion : Option String
  deriving Repr, DecidableEq

/-- The number of the layout of keys. -/
def layoutVersion : String := "1"

/-- The name that files are laid out under. -/
def fileStem : String := "input"

/-- The field of an input without a value. -/
def absent : Field := .text "value" "absent"

def fileFields (files : List (String × Bytes)) : List Field :=
  .count "files" files.length
    :: files.flatMap fun (path, content) => [.text "file" path, ⟨"content", content⟩]

/-- The fields of a value, after its binding. -/
def contentFields (delivery : Delivery) (v : Value) : Except Fault (List Field) :=
  match delivery with
  | .argument flag => (v.arguments flag).map (Field.list "argv")
  | .stdin => v.toBytes.map fun b => [⟨"stdin.sha256", Digest.sha256 b⟩]
  | .file .. => (v.toFiles fileStem).map fileFields

/-- The fields of a value that may be missing. -/
def valueFields (delivery : Delivery) : Option Value → Except Fault (List Field)
  | none => .ok [absent]
  | some v => (contentFields delivery v).map (.text "value.binding" v.binding.key :: ·)

/-- The field of a delivery, beyond its name. A file that the program is not told about must have a
path that it knows. -/
def deliveryField (id : String) : Delivery → Except Fault Field
  | .argument flag => .ok (.optional "flag" flag)
  | .stdin => .ok (.optional "path" none)
  | .file _ (some argument) => .ok (.optional "argv.flag" argument.flag)
  | .file (.fixed path) none => .ok (.text "path" path)
  | .file .generated none => .error (.inconsistentConfiguration
      s!"input '{id}' is written to a generated file that is not passed to the program")

/-- The fields of an input and its value. -/
def inputFields (p : InputParameter) (v : Option Value) : Except Fault (List Field) := do
  let delivery ← p.delivery
  let mechanism ← deliveryField p.id delivery
  let value ← valueFields delivery v
  return [.text "input" p.id, .text "binding" p.binding.key, .flag "optional" p.optional,
    .text "mechanism" delivery.key, mechanism] ++ value

/-- The fields of an output. -/
def outputFields (p : OutputParameter) : Except Fault (List Field) := do
  let collection ← p.collection
  let path := match collection with
    | .file path => [.text "path" path]
    | _ => []
  return [.text "output" p.id, .text "binding" p.binding.key, .flag "optional" p.optional,
    .text "mechanism" collection.key] ++ path

/-- The field of a handler, whose name must be known. -/
def handlerField (registry : Registry) (slot : Slot) (name : Option String) :
    Except Fault Field :=
  match name with
  | none => .ok (.optional slot.key none)
  | some name =>
    if registry.knows slot name then .ok (.optional slot.key (some name))
    else .error (.unknownHandler slot.key name)

/-- The fields that do not depend on the values of the request. -/
def processFields (c : Configuration) (environment : Environment) : List Field :=
  [.text "layout" layoutVersion, .text "process" c.id,
    .text "image" (environment.imageId.getD c.image),
    .optional "runner.version" environment.runnerVersion,
    .optional "service.version" environment.serviceVersion,
    .text "workdir" c.workingDirectory]
    ++ Field.list "command" c.command ++ Field.list "flags" c.flags

/-- What the key of a request is made from. The outputs asked for are given in ascending order
without repetition; none at all stand for all of them. -/
def fields (registry : Registry) (c : Configuration) (environment : Environment) (inputs : Inputs)
    (requested : List String) : Except Fault (List Field) := do
  let inputParts ← c.inputs.mapM fun p => inputFields p (inputs.first? p.id)
  let outputParts ← c.outputs.mapM outputFields
  let handlers ← [Slot.stderr, .exitValue, .stdout].mapM fun slot =>
    handlerField registry slot (c.handlerName slot)
  return processFields c environment
    ++ .count "inputs" c.inputs.length :: inputParts.flatten
    ++ .count "outputs" c.outputs.length :: outputParts.flatten
    ++ handlers
    ++ Field.list "requested" requested

/-- The key of a request. -/
def ofRequest (registry : Registry) (c : Configuration) (environment : Environment)
    (inputs : Inputs) (requested : List String) : Except Fault String :=
  (fields registry c environment inputs requested).map fingerprint

end CachedRun.Key
