import CachedRun.Parameter
import CachedRun.Registry

/-!
# Configurations

A configuration describes a process: the image it runs in, its command line, what goes in and what
comes out, and who looks at a finished run. It is built without any checks; a document is checked
when it is read.
-/

set_option autoImplicit false

namespace CachedRun

/-- The description of a process. -/
structure Configuration where
  id : String
  summary : Option String
  image : String
  workingDirectory : String
  command : List String
  /-- Words placed right after the command. -/
  flags : List String
  inputs : List InputParameter
  outputs : List OutputParameter
  stderrHandler : Option (Handler StderrCheck)
  exitValueHandler : Option (Handler ExitCheck)
  stdoutHandler : Option (Handler StdoutCheck)
  deriving BEq

namespace Configuration

/-- The first input of an identifier. -/
def input? (c : Configuration) (id : String) : Option InputParameter :=
  c.inputs.find? fun p => p.id = id

/-- The first output of an identifier. -/
def output? (c : Configuration) (id : String) : Option OutputParameter :=
  c.outputs.find? fun p => p.id = id

/-- The name of the handler in a slot, if there is one. -/
def handlerName (c : Configuration) : Slot → Option String
  | .stderr => c.stderrHandler.map (·.name)
  | .exitValue => c.exitValueHandler.map (·.name)
  | .stdout => c.stdoutHandler.map (·.name)

end Configuration

end CachedRun
