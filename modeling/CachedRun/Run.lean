import CachedRun.Configuration

/-!
# Runs

A run is prepared from a configuration and the values of a request (`assemble`), executed by a
runner, and judged and collected from what it left (`judge`, `collect`).

The command line is the configured command, its flags, and the words of the inputs in the order of
their declaration. Inputs without a value are passed over. Standard input is the concatenation of
all values delivered there.
-/

set_option autoImplicit false

namespace CachedRun

/-- What a runner is asked to execute. -/
structure RunRequest where
  image : String
  workingDirectory : String
  command : List String
  stdin : Bytes
  /-- Paths with contents, written before the program starts. -/
  inputFiles : List (String × Bytes)
  /-- Paths fetched after the program has ended. -/
  outputFiles : List String
  deriving Repr, DecidableEq

/-- What a program leaves. -/
structure RunOutput where
  exitCode : Int
  stdout : Bytes
  stderr : Bytes
  /-- Paths with contents, of the files asked for that exist. -/
  files : Dict Bytes
  deriving Repr, DecidableEq

namespace RunOutput

def isSuccess (o : RunOutput) : Bool := o.exitCode = 0

def stdoutText (o : RunOutput) : String := Text.decodeLossy o.stdout

def stderrText (o : RunOutput) : String := Text.decodeLossy o.stderr

end RunOutput

namespace Run

/-! ## Before the run -/

/-- What one input adds to a run. -/
structure Part where
  words : List String
  stdin : Bytes
  files : List (String × Bytes)

/-- The part of an input without a value. -/
def Part.nothing : Part := ⟨[], [], []⟩

/-- The part of a value that is delivered in a given way. -/
def partOf (binding : Binding) (delivery : Delivery) (unique : String) (v : Value) :
    Except Fault Part :=
  match delivery with
  | .argument flag => (v.arguments flag).map fun words => ⟨words, [], []⟩
  | .stdin => v.toBytes.map fun b => ⟨[], b, []⟩
  | .file path argument => do
    let path := path.resolve binding unique
    let files ← v.toFiles path
    let words := match argument with
      | some argument => Value.pathArguments path argument.flag
      | none => []
    return ⟨words, [], files⟩

/-- The part of an input. -/
def inputPart (unique : String) (p : InputParameter) (v : Option Value) : Except Fault Part := do
  let delivery ← p.delivery
  match v with
  | none => return .nothing
  | some v => partOf p.binding delivery unique v

/-- The parts of inputs; the number is the place of the first among all inputs. Each place has a
text of its own for generated names. -/
def inputParts (unique : Nat → String) (inputs : Inputs) :
    Nat → List InputParameter → Except Fault (List Part)
  | _, [] => .ok []
  | place, p :: rest => do
    let part ← inputPart (unique place) p (inputs.first? p.id)
    let others ← inputParts unique inputs (place + 1) rest
    return part :: others

/-- The paths that an output may be found at. -/
def outputFiles (p : OutputParameter) : Except Fault (List String) := do
  match ← p.collection with
  | .file path => return outputPaths p.binding path
  | _ => return []

/-- The outputs that a request selects; none asked for stand for all. -/
def selected (c : Configuration) (requested : List String) : List OutputParameter :=
  c.outputs.filter fun p => requested.isEmpty || requested.contains p.id

/-- The request to the runner. -/
def assemble (unique : Nat → String) (c : Configuration) (inputs : Inputs)
    (selected : List OutputParameter) : Except Fault RunRequest := do
  let parts ← inputParts unique inputs 0 c.inputs
  let outputs ← selected.mapM outputFiles
  return {
    image := c.image
    workingDirectory := c.workingDirectory
    command := c.command ++ c.flags ++ parts.flatMap Part.words
    stdin := parts.flatMap Part.stdin
    inputFiles := parts.flatMap Part.files
    outputFiles := outputs.flatten }

/-! ## After the run -/

/-- Shows a finished run to the handlers: the error stream, the exit value, the output stream. -/
def judge (c : Configuration) (o : RunOutput) : Except Fault Unit := do
  match c.stderrHandler with
  | some handler => handler.check.run o.stderrText
  | none => pure ()
  match c.exitValueHandler with
  | some handler => handler.check.run o.exitCode
  | none => pure ()
  match c.stdoutHandler with
  | some handler => return handler.check.run o.stdoutText
  | none => pure ()

/-- The value of an output. -/
def convert (p : OutputParameter) (o : RunOutput) : Except Fault Value := do
  let v ← match ← p.collection with
    | .stdout => Value.ofBytes p.binding o.stdout
    | .stderr => Value.ofBytes p.binding o.stderr
    | .exitValue => .ok (.int o.exitCode)
    | .file path => Id.run (Value.ofFiles p.binding path fun path => o.files.find? path)
  p.validate v
  return v

/-- Adds the values of outputs to a table. An optional output that has none is left out. -/
def collectInto (o : RunOutput) : Outputs → List OutputParameter → Except Fault Outputs
  | found, [] => .ok found
  | found, p :: rest =>
    match convert p o with
    | .ok v => collectInto o (found.insert p.id v) rest
    | .error fault => if p.optional then collectInto o found rest else .error fault

/-- The values of outputs. -/
def collect (selected : List OutputParameter) (o : RunOutput) : Except Fault Outputs :=
  collectInto o [] selected

end Run

end CachedRun
