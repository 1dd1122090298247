import CachedRun.Archive
import CachedRun.Container.Daemon

/-!
# Runs in containers

Each run has a container of its own: it is created, the input files are copied into it, it is
started with the standard input of the request, the output files are copied out of it, and it is
removed. Removal is forced and comes last whatever happened before, so a container that still runs
after its time is stopped by it.

Relative paths are meant below the working directory and absolute ones below the root. Files go in
as one archive for each of the two, and come out one by one; an output file that is not there is no
fault.
-/

set_option autoImplicit false

namespace CachedRun.Container

/-- The name of the runner. -/
def runnerName : String := "docker"

/-! ## Arguments -/

/-- The capabilities that a container does not get. -/
def droppedCapabilities : List String :=
  ["chown", "dac_override", "fowner", "fsetid", "kill", "setgid", "setuid", "setpcap",
    "net_bind_service", "net_raw", "sys_chroot", "mknod", "audit_write", "setfcap"]

/-- A container that is never restarted, with standard streams and few capabilities. -/
def createArguments (request : RunRequest) : List String :=
  ["container", "create", "--attach", "STDOUT", "--attach", "STDERR", "--interactive", "--workdir",
      request.workingDirectory, "--restart", "no", "--security-opt", "seccomp=unconfined"]
    ++ droppedCapabilities.flatMap (fun capability => ["--cap-drop", capability])
    ++ [request.image] ++ request.command

/-- Unpacks an archive from standard input. -/
def copyInArguments (id destination : String) : List String :=
  ["container", "cp", "-", s!"{id}:{destination}"]

def startArguments (id : String) : List String :=
  ["container", "start", "--interactive", "--attach", id]

/-- Packs a file into an archive on standard output. -/
def copyOutArguments (id source : String) : List String :=
  ["container", "cp", s!"{id}:{source}", "-"]

def removeArguments (id : String) : List String := ["container", "rm", "--force", id]

/-! ## Steps -/

variable {m : Type → Type} [Monad m]

/-- Calls the daemon for an operation. -/
def ask (d : Daemon m) (operation : String) (arguments : List String) (stdin : Bytes) :
    ExceptT Fault m Ended :=
  d.ask runnerName operation Daemon.callMillis arguments stdin

/-- The id that a finished creation has printed. -/
def idOf (e : Ended) : Except Fault String :=
  if !e.isSuccess then .error (.runnerFailed runnerName s!"container create: {e.complaint}")
  else if e.answer = "" then .error (.runnerFailed runnerName "container create returned no id")
  else .ok e.answer

/-- Creates the container of a request. -/
def create (d : Daemon m) (request : RunRequest) : ExceptT Fault m String := do
  let e ← ask d "container create" (createArguments request) []
  ExceptT.mk (return idOf e)

/-- The archive of a list of files. -/
def pack (files : List (String × Bytes)) : Except Fault Bytes :=
  (Archive.write files).mapError fun flaw => .system flaw.message

/-- Copies files below a directory of the container. -/
def copyInto (d : Daemon m) (id destination : String) (files : List (String × Bytes)) :
    ExceptT Fault m Unit := do
  if files = [] then return
  let archive ← ExceptT.mk (return pack files)
  let e ← ask d "container cp in" (copyInArguments id destination) archive
  if !e.isSuccess then
    throw (.runnerFailed runnerName s!"copy into {id}:{destination}: {e.complaint}")

/-- A path without the slash that makes it absolute. -/
def belowRoot? (path : String) : Option String :=
  match path.toList with
  | '/' :: rest => some (String.ofList rest)
  | _ => none

/-- The files below the working directory. -/
def relativeFiles (files : List (String × Bytes)) : List (String × Bytes) :=
  files.filter fun file => (belowRoot? file.1).isNone

/-- The files below the root, by their paths from there. -/
def absoluteFiles (files : List (String × Bytes)) : List (String × Bytes) :=
  files.filterMap fun (path, content) => (belowRoot? path).map fun path => (path, content)

/-- Copies the input files of a request. -/
def copyIn (d : Daemon m) (id : String) (request : RunRequest) : ExceptT Fault m Unit := do
  copyInto d id request.workingDirectory (relativeFiles request.inputFiles)
  copyInto d id "/" (absoluteFiles request.inputFiles)

/-- Where an output file lies in the container. -/
def sourceOf (workingDirectory path : String) : String :=
  if (belowRoot? path).isSome then path
  else
    let directory := Text.dropEndWhile (· == '/') workingDirectory.toList
    s!"{String.ofList directory}/{path}"

/-- The content of an output file, if it is there. -/
def copyOut (d : Daemon m) (id source : String) : ExceptT Fault m (Option Bytes) := do
  let e ← ask d "container cp out" (copyOutArguments id source) []
  if !e.isSuccess then return none
  ExceptT.mk (return (Archive.firstFile e.stdout).mapError fun flaw => .system flaw.message)

/-- Adds the output files that are there to a table. -/
def collect (d : Daemon m) (id workingDirectory : String) :
    Dict Bytes → List String → ExceptT Fault m (Dict Bytes)
  | found, [] => return found
  | found, path :: rest => do
    match ← copyOut d id (sourceOf workingDirectory path) with
    | some content => collect d id workingDirectory (found.insert path content) rest
    | none => collect d id workingDirectory found rest

/-- What happens in a container between its creation and its removal. -/
def runIn (d : Daemon m) (millis : Nat) (id : String) (request : RunRequest) :
    ExceptT Fault m RunOutput := do
  copyIn d id request
  let e ← d.ask runnerName "container start" millis (startArguments id) request.stdin
  let files ← collect d id request.workingDirectory [] request.outputFiles
  return ⟨e.code, e.stdout, e.stderr, files⟩

/-- What can be refused without the daemon. -/
def check (request : RunRequest) : Except Fault Unit := do
  Image.validate request.image
  if request.command = [] then throw (.runnerFailed runnerName "empty command")

/-! ## The runner -/

/-- Runs a request in a container of its own; the limit is for the program, in milliseconds. What
comes of the removal does not matter to the answer. -/
def run (d : Daemon m) (millis : Nat) (request : RunRequest) : m (Except Fault RunOutput) := do
  match check request with
  | .error fault => return .error fault
  | .ok () =>
    match ← (create d request).run with
    | .error fault => return .error fault
    | .ok id =>
      let result ← (runIn d millis id request).run
      let _ ← d.call (removeArguments id) [] (some Daemon.callMillis)
      return result

/-- The runner of a daemon. -/
def runner (d : Daemon m) (millis : Nat) : Runner m := ⟨runnerName, d.isAvailable, run d millis⟩

end CachedRun.Container
