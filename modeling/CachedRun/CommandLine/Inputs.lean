import CachedRun.Json.Reader
import CachedRun.Run
import CachedRun.Value.Document

/-!
# Input files

An input file is a JSON object that gives each input a value or a list of values. An input that is
given twice has the values of its last mention.
-/

set_option autoImplicit false

namespace CachedRun.CommandLine

/-- Why an input file cannot be used. -/
inductive InputFlaw where
  | unreadable (path reason : String)
  | notJson
  | notObject
  | wrongValue (id : String) (mismatch : Json.Mismatch)
  deriving Repr, DecidableEq

def InputFlaw.message : InputFlaw → String
  | .unreadable path reason => s!"read inputs {path}: {reason}"
  | .notJson => "the inputs are not valid JSON"
  | .notObject => "inputs must be a JSON object"
  | .wrongValue id mismatch => s!"input '{id}': {mismatch.message}"

/-- The values of one input. -/
def valuesOf (id : String) (j : Json) : Except InputFlaw (String × List Value) :=
  let values := match j with
    | .array items => items.mapM Value.ofJson
    | j => (Value.ofJson j).map fun v => [v]
  match values with
  | .ok values => .ok (id, values)
  | .error mismatch => .error (.wrongValue id mismatch)

/-- Reads inputs from a document. -/
def inputsOfDocument (document : String) : Except InputFlaw Inputs :=
  match (Json.read? document).map Json.canonical with
  | none => .error .notJson
  | some (.object fields) => fields.mapM fun (id, j) => valuesOf id j
  | some _ => .error .notObject

/-- Reads inputs from the content of a file, or gives the reason why the file cannot be read. -/
def loadInputs (path : String) (content : Except String Bytes) : Except InputFlaw Inputs :=
  match content with
  | .error reason => .error (.unreadable path reason)
  | .ok b =>
    match Text.decode b with
    | .ok document => inputsOfDocument document
    | .error _ => .error (.unreadable path "stream did not contain valid UTF-8")

end CachedRun.CommandLine
