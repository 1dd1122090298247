import CachedRun.Configuration
import CachedRun.Image
import CachedRun.Json.Reader
import CachedRun.Text.Words

/-!
# Configuration documents

A configuration is written as a JSON object. The registry says which names of handlers there are.

The document is read in a fixed order, and the first flaw found is the answer: the keys of the
process, then the inputs one after the other, then the outputs, then the handlers. A `Flaw` names
what is wrong with which key; a flaw of the image reference is a fault of its own.

How an input is delivered follows from `useAs` and its binding. On the command line go literals and
boxes themselves, and of everything else the path of a generated file; a file with a path of its own
goes on the command line only if the document asks for it, by a flag or by `passAsArgument`.
-/

set_option autoImplicit false

namespace CachedRun.Configuration

/-- What is wrong with a configuration document. -/
inductive Flaw where
  | notJson
  | notObject
  | missingKey (key : String)
  | keyType (key expected : String)
  | unbalancedQuotes (key : String)
  | missingElement (key : String)
  | elementType (key expected : String)
  /-- An item of a list is of the wrong type. -/
  | itemType (key expected : String)
  | unsupportedDelivery (name : String)
  | unsupportedCollection (name : String)
  | unsupportedType (name : String)
  /-- A mechanism, declared under a key, does not take a binding. -/
  | unsupportedTypeFor (binding key mechanism : String)
  | unsupportedHandler (name key : String)
  | tooLarge (path : String) (limit : Nat)
  deriving Repr, DecidableEq

def Flaw.message : Flaw → String
  | .notJson => "not a JSON document"
  | .notObject => "There must be a json document (as json object)"
  | .missingKey key => s!"Missing key '{key}'"
  | .keyType key expected => s!"Wrong type for key '{key}', expected {expected}"
  | .unbalancedQuotes key => s!"Unbalanced quotes in key '{key}'"
  | .missingElement key => s!"Missing element '{key}'"
  | .elementType key expected => s!"Wrong type for element '{key}', expected {expected}"
  | .itemType key expected => s!"Wrong type for element in {key}, expected {expected}"
  | .unsupportedDelivery name => s!"Not supported useAs value: '{name}'"
  | .unsupportedCollection name => s!"Not supported readFrom value: '{name}'"
  | .unsupportedType name => s!"Not supported type value '{name}'"
  | .unsupportedTypeFor binding key mechanism =>
    s!"Not supported type value '{binding}' for {key} '{mechanism}'"
  | .unsupportedHandler name key => s!"Unsupported value '{name}' for key '{key}'"
  | .tooLarge path limit => s!"configuration file {path} exceeds {limit} bytes"

/-- The fault of a flawed document. -/
def Flaw.fault (flaw : Flaw) : Fault := .unreadableConfiguration flaw.message

/-- The fields of a canonical object. -/
abbrev Object := Dict Json

/-! ## Keys of the process -/

/-- A text that may be missing. -/
def optionalKey (o : Object) (key : String) : Except Flaw (Option String) :=
  match o.find? key with
  | none => .ok none
  | some (.string s) => .ok (some s)
  | some _ => .error (.keyType key "a String")

def requiredKey (o : Object) (key : String) : Except Flaw String := do
  match ← optionalKey o key with
  | some s => return s
  | none => throw (.missingKey key)

/-- A list that may be missing. -/
def listKey (o : Object) (key : String) : Except Flaw (List Json) :=
  match o.find? key with
  | none => .ok []
  | some (.array items) => .ok items
  | some _ => .error (.keyType key "an Array")

/-- A list of texts that may be missing. -/
def textListKey (o : Object) (key : String) : Except Flaw (List String) := do
  (← listKey o key).mapM fun
    | .string s => .ok s
    | _ => .error (.itemType key "a String")

/-- A list of objects that may be missing, each read in turn. -/
def objectListKey {α : Type} (o : Object) (key : String) (read : Object → Except Flaw α) :
    Except Flaw (List α) := do
  (← listKey o key).mapM fun
    | .object fields => read fields
    | _ => .error (.itemType key "a JSON object")

/-! ## Elements of a parameter -/

def optionalElement (o : Object) (key : String) : Except Flaw (Option String) :=
  match o.find? key with
  | none => .ok none
  | some (.string s) => .ok (some s)
  | some _ => .error (.elementType key "a String")

def requiredElement (o : Object) (key : String) : Except Flaw String := do
  match ← optionalElement o key with
  | some s => return s
  | none => throw (.missingElement key)

/-- A truth value; false if it is missing. -/
def boolElement (o : Object) (key : String) : Except Flaw Bool :=
  match o.find? key with
  | none => .ok false
  | some (.bool b) => .ok b
  | some _ => .error (.elementType key "a Boolean")

/-- The text of an item of a list of literals: a number is kept as its JSON text. -/
def literalItem (key : String) : Json → Except Flaw String
  | .string s => .ok s
  | .integer i => .ok (Json.integer i).compact
  | .double d => .ok (Json.double d).compact
  | .bool b => .ok (Json.bool b).compact
  | _ => .error (.itemType key "a String")

/-- A list of literals that may be missing. -/
def literalsElement (o : Object) (key : String) : Except Flaw (List String) :=
  match o.find? key with
  | none => .ok []
  | some (.array items) => items.mapM (literalItem key)
  | some _ => .error (.elementType key "a JSON array")

def bindingElement (o : Object) : Except Flaw Binding := do
  let key ← requiredElement o "type"
  match Binding.ofKey? key with
  | some binding => return binding
  | none => throw (.unsupportedType key)

/-! ## Parameters -/

/-- The deliveries that a document can name. -/
inductive DeliveryName where
  | argument
  | stdin
  | file
  deriving Repr, DecidableEq

/-- The delivery that a document names. -/
def deliveryName? (name : String) : Option DeliveryName :=
  if name = "commandLineArgument" then some .argument
  else if name = "stdin" then some .stdin
  else if name = "file" then some .file
  else none

/-- The delivery of an input that is read from a document. -/
def readDelivery (o : Object) (name : DeliveryName) (binding : Binding) (flag : Option String) :
    Except Flaw Delivery :=
  match name with
  | .argument =>
    if binding.isLiteral || binding = .bbox then .ok (.argument flag)
    else .ok (.file .generated (some ⟨flag⟩))
  | .stdin => .ok .stdin
  | .file => do
    let path ← requiredElement o "path"
    let pass ← boolElement o "passAsArgument"
    return .file (.fixed path) (if pass || flag.isSome then some ⟨flag⟩ else none)

def readInput (o : Object) : Except Flaw InputParameter := do
  let id ← requiredElement o "title"
  let useAs ← requiredElement o "useAs"
  let binding ← bindingElement o
  match deliveryName? useAs with
  | none => throw (.unsupportedDelivery useAs)
  | some name =>
    if binding ∉ inputBindings useAs then throw (.unsupportedTypeFor binding.key "useAs" useAs)
    let flag ← optionalElement o "commandLineFlag"
    let optional ← boolElement o "optional"
    let summary ← optionalElement o "abstract"
    let default ← optionalElement o "default"
    let allowed ← literalsElement o "allowed"
    let crs ← literalsElement o "crs"
    let declaredSchema ← optionalElement o "schema"
    let declaredFormat ← optionalElement o "defaultFormat"
    let delivery ← readDelivery o name binding flag
    return { id, summary, binding, optional, default, allowed, crs, declaredSchema, declaredFormat,
             declaredDelivery := some delivery }

/-- The collections that a document can name. -/
inductive CollectionName where
  | stdout
  | stderr
  | exitValue
  | files
  deriving Repr, DecidableEq

/-- The collection that a document names. -/
def collectionName? (name : String) : Option CollectionName :=
  if name = "stdout" then some .stdout
  else if name = "stderr" then some .stderr
  else if name = "exitValue" then some .exitValue
  else if name = "files" then some .files
  else none

/-- The collection of an output that is read from a document. -/
def readCollection (o : Object) : CollectionName → Except Flaw Collection
  | .stdout => .ok .stdout
  | .stderr => .ok .stderr
  | .exitValue => .ok .exitValue
  | .files => (requiredElement o "path").map .file

def readOutput (o : Object) : Except Flaw OutputParameter := do
  let id ← requiredElement o "title"
  let readFrom ← requiredElement o "readFrom"
  let binding ← bindingElement o
  match collectionName? readFrom with
  | none => throw (.unsupportedCollection readFrom)
  | some name =>
    if binding ∉ outputBindings readFrom then
      throw (.unsupportedTypeFor binding.key "readFrom" readFrom)
    let optional ← boolElement o "optional"
    let summary ← optionalElement o "abstract"
    let declaredSchema ← optionalElement o "schema"
    let declaredFormat ← optionalElement o "defaultFormat"
    let collection ← readCollection o name
    return { id, summary, binding, optional, declaredSchema, declaredFormat,
             declaredCollection := some collection }

/-! ## Documents -/

/-- A handler that may be missing. -/
def readHandler {κ : Type} (o : Object) (key : String)
    (create : String → Except Fault (Option (Handler κ))) :
    Except Flaw (Option (Handler κ)) := do
  match ← optionalKey o key with
  | none => return none
  | some name => (create name).mapError fun _ => .unsupportedHandler name key

/-- A step whose flaws are faults of the configuration. -/
def orFault {α : Type} (result : Except Flaw α) : Except Fault α := result.mapError Flaw.fault

/-- Reads a configuration from the fields of its document. -/
def ofObject (registry : Registry) (o : Object) : Except Fault Configuration := do
  let id ← orFault (requiredKey o "title")
  let summary ← orFault (optionalKey o "abstract")
  let image ← orFault (requiredKey o "imageId")
  Image.validate image
  let workingDirectory ← orFault (requiredKey o "workingDirectory")
  let line ← orFault (requiredKey o "commandToExecute")
  let command ← orFault <| match Text.Words.split line with
    | some words => .ok words
    | none => .error (.unbalancedQuotes "commandToExecute")
  let flags ← orFault (textListKey o "defaultCommandLineFlags")
  let inputs ← orFault (objectListKey o "input" readInput)
  let outputs ← orFault (objectListKey o "output" readOutput)
  let stderrHandler ← orFault (readHandler o "stderrHandler" registry.stderrHandler)
  let exitValueHandler ← orFault (readHandler o "exitValueHandler" registry.exitValueHandler)
  let stdoutHandler ← orFault (readHandler o "stdoutHandler" registry.stdoutHandler)
  return { id, summary, image, workingDirectory, command, flags, inputs, outputs, stderrHandler,
           exitValueHandler, stdoutHandler }

/-- Reads a configuration from a JSON value. -/
def ofJson (registry : Registry) (j : Json) : Except Fault Configuration :=
  match j.canonical with
  | .object fields => ofObject registry fields
  | _ => .error Flaw.notObject.fault

/-- Reads a configuration document. -/
def read (registry : Registry) (document : String) : Except Fault Configuration :=
  match Json.read? document with
  | some j => ofJson registry j
  | none => .error Flaw.notJson.fault

/-- The greatest size of a configuration file in bytes. -/
def maxFileSize : Nat := 1048576

/-- Reads a configuration from the content of a file, or gives the reason why the file cannot be
read. The size is looked at first. -/
def load (registry : Registry) (path : String) (content : Except String Bytes) :
    Except Fault Configuration :=
  match content with
  | .error reason => .error (.system reason)
  | .ok b =>
    if b.length > maxFileSize then .error (Flaw.tooLarge path maxFileSize).fault
    else match Text.decode b with
      | .ok document => read registry document
      | .error _ => .error (.system "stream did not contain valid UTF-8")

end CachedRun.Configuration
