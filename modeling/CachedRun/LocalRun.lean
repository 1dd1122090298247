import CachedRun.Runner
import CachedRun.Store.Component

/-!
# Local runs

A local run executes the program on the host, in a scratch directory of its own that is thrown away
afterwards. The image of the request plays no part, and its working directory is the scratch
directory: relative and absolute paths lead to the same place inside it, and a path that leads
upwards anywhere is refused.

The scratch directory is a `FileTree` whose root it is. What executes the program gets this tree and
gives it back as the program left it, so nothing outside can be touched.
-/

set_option autoImplicit false

namespace CachedRun.LocalRun

/-- The name of the runner. -/
def runnerName : String := "local"

/-- A program to be started. -/
structure Launch where
  program : String
  arguments : List String
  stdin : Bytes
  /-- The time limit in milliseconds. -/
  millis : Nat
  deriving Repr, DecidableEq

/-! ## Paths -/

def escapeFault (path : String) : Fault :=
  .runnerFailed runnerName s!"path '{path}' escapes the working directory"

/-- The parts of a path, without the slashes at its beginning. -/
def parts (path : String) : List Component :=
  Component.ofText (String.ofList (path.toList.dropWhile (· == '/')))

/-- Whether a part of a path stays below the directory it starts in. -/
def stays : Component → Bool
  | .name _ | .current => true
  | .root | .parent => false

/-- The place of a path in a scratch directory. -/
def scratchPath (root : Path) (path : String) : Except Fault Path :=
  if parts path = [] ∨ !(parts path).all stays then .error (escapeFault path)
  else .ok (root ++ (parts path).filterMap Component.name?)

/-- Whether a path can name a file: its last piece is a name. -/
def namesFile (path : String) : Bool :=
  match (Text.splitAt '/' path.toList).getLast? with
  | some piece => (Component.ofPiece? piece).isSome
  | none => false

/-- The length of a name in bytes that a file system takes. -/
def nameLimit : Nat := 255

/-- Why a file system does not take a name, if it does not. -/
def nameFlaw? (name : String) : Option String :=
  if '\x00' ∈ name.toList then some "file name contained an unexpected NUL byte"
  else if name.utf8ByteSize > nameLimit then some "File name too long (os error 36)"
  else none

/-! ## Files -/

/-- The refusal of a file system. -/
def systemFault {α : Type} (result : Except FileTree.Flaw α) : Except Fault α :=
  result.mapError fun flaw => .system flaw.message

/-- Writes an input file with the directories on the way to it. -/
def writeFile (root : Path) (t : FileTree) (path : String) (content : Bytes) :
    Except Fault FileTree := do
  let target ← scratchPath root path
  match target.findSome? nameFlaw? with
  | some reason => throw (.system reason)
  | none =>
    let directory := if namesFile path then target.dropLast else target
    let t ← systemFault (t.createDirectories directory)
    systemFault (t.write target content)

/-- Writes the input files one after the other. -/
def writeFiles (root : Path) : FileTree → List (String × Bytes) → Except Fault FileTree
  | t, [] => .ok t
  | t, (path, content) :: rest => do writeFiles root (← writeFile root t path content) rest

/-- The files that are there of those asked for. A path that leads upwards is refused even then. -/
def readFiles (root : Path) (t : FileTree) : Dict Bytes → List String → Except Fault (Dict Bytes)
  | found, [] => .ok found
  | found, path :: rest => do
    let source ← scratchPath root path
    match if namesFile path then t.file? source else none with
    | some content => readFiles root t (found.insert path content) rest
    | none => readFiles root t found rest

/-! ## The runner -/

variable {m : Type → Type} [Monad m]

/-- Runs a request in a scratch directory. The limit is in milliseconds, and `execute` starts a
program on the tree of the directory. -/
def run (execute : Launch → FileTree → m (Outcome × FileTree)) (millis : Nat)
    (request : RunRequest) : m (Except Fault RunOutput) := do
  match request.command with
  | [] => return .error (.runnerFailed runnerName "empty command")
  | program :: arguments =>
    match writeFiles [] .empty request.inputFiles with
    | .error fault => return .error fault
    | .ok t =>
      let (outcome, t) ← execute ⟨program, arguments, request.stdin, millis⟩ t
      return do
        let e ← outcome.orFault runnerName program millis
        let files ← readFiles [] t [] request.outputFiles
        return ⟨e.code, e.stdout, e.stderr, files⟩

/-- The runner on this host, which is always available. -/
def runner (execute : Launch → FileTree → m (Outcome × FileTree)) (millis : Nat) : Runner m :=
  ⟨runnerName, pure true, run execute millis⟩

end CachedRun.LocalRun
