import CachedRun.Convert
import CachedRun.Validator

/-!
# Parameters

A parameter of a process is an input or an output. An input says how its value reaches the program,
its *delivery*; an output says where its value is found, its *collection*. A declaration without
either is accepted and fails when it is first used.
-/

set_option autoImplicit false

namespace CachedRun

/-- Where a value is written that is delivered as a file. -/
inductive FilePath where
  /-- A path that the program knows. -/
  | fixed (path : String)
  /-- A name made for one run. The program can find it only on its command line. -/
  | generated
  deriving Repr, DecidableEq

/-- The path to use in a run, given a text that no other run has. -/
def FilePath.resolve (path : FilePath) (binding : Binding) (unique : String) : String :=
  match path with
  | .fixed path => path
  | .generated => s!"inputfile{unique}.{binding.extension}"

/-- Puts the path of a file on the command line. -/
structure PathArgument where
  flag : Option String
  deriving Repr, DecidableEq

/-- How the value of an input reaches the program. -/
inductive Delivery where
  /-- As words on the command line. -/
  | argument (flag : Option String)
  /-- On standard input. -/
  | stdin
  /-- As a file, whose path may be put on the command line. -/
  | file (path : FilePath) (argument : Option PathArgument)
  deriving Repr, DecidableEq

namespace Delivery

/-- The name of the delivery in documents and keys. -/
def key : Delivery → String
  | .argument _ => "commandLineArgument"
  | .stdin => "stdin"
  | .file .. => "file"

/-- Whether the value, or its path, is on the command line. -/
def isOnCommandLine : Delivery → Bool
  | .argument _ => true
  | .file _ (some _) => true
  | _ => false

end Delivery

/-- Where the value of an output is found. -/
inductive Collection where
  | stdout
  | stderr
  | exitValue
  | file (path : String)
  deriving Repr, DecidableEq

/-- The name of the collection in documents and keys. -/
def Collection.key : Collection → String
  | .stdout => "stdout"
  | .stderr => "stderr"
  | .exitValue => "exitValue"
  | .file _ => "files"

/-- The declaration of an input. -/
structure InputParameter where
  id : String
  summary : Option String
  binding : Binding
  optional : Bool
  default : Option String
  allowed : List String
  crs : List String
  declaredSchema : Option String
  declaredFormat : Option String
  declaredDelivery : Option Delivery
  deriving Repr, DecidableEq

namespace InputParameter

/-- The declared schema, or the one of the binding. -/
def schema? (p : InputParameter) : Option String := p.declaredSchema <|> p.binding.defaultSchema?

/-- The declared MIME type, or the one of the binding. -/
def format? (p : InputParameter) : Option String := p.declaredFormat <|> p.binding.defaultFormat?

/-- How the value reaches the program. -/
def delivery (p : InputParameter) : Except Fault Delivery :=
  match p.declaredDelivery with
  | some delivery => .ok delivery
  | none => .error (.missingMechanism p.id "input")

/-- The validators that the declaration implies: the allowed values, then the declared schema. -/
def validators (p : InputParameter) : List Validator :=
  (if p.allowed = [] then [] else [.allowed p.allowed])
    ++ p.declaredSchema.toList.map .schema

/-- Checks a value against the binding and the validators, in that order. -/
def validate (p : InputParameter) (v : Value) : Except Fault Unit :=
  if v.binding ≠ p.binding then
    .error (.invalidInput p.id s!"expected {p.binding.key} but got {v.binding.key}")
  else
    match p.validators.findSome? fun validator => validator.check v with
    | some rejection => .error (.invalidInput p.id rejection.message)
    | none => .ok ()

end InputParameter

/-- The declaration of an output. -/
structure OutputParameter where
  id : String
  summary : Option String
  binding : Binding
  optional : Bool
  declaredSchema : Option String
  declaredFormat : Option String
  declaredCollection : Option Collection
  deriving Repr, DecidableEq

namespace OutputParameter

/-- The declared schema, or the one of the binding. -/
def schema? (p : OutputParameter) : Option String := p.declaredSchema <|> p.binding.defaultSchema?

/-- The declared MIME type, or the one of the binding. -/
def format? (p : OutputParameter) : Option String := p.declaredFormat <|> p.binding.defaultFormat?

/-- Where the value is found. -/
def collection (p : OutputParameter) : Except Fault Collection :=
  match p.declaredCollection with
  | some collection => .ok collection
  | none => .error (.missingMechanism p.id "output")

/-- Checks a value against the declared schema. -/
def validate (p : OutputParameter) (v : Value) : Except Fault Unit :=
  match p.declaredSchema.bind fun schema => (Validator.schema schema).check v with
  | some rejection =>
    .error (.cannotConvert p.binding s!"output '{p.id}': {rejection.message}")
  | none => .ok ()

end OutputParameter

end CachedRun
