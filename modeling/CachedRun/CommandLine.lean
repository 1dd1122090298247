import CachedRun.CommandLine.Arguments
import CachedRun.CommandLine.Inputs
import CachedRun.Configuration.Document
import CachedRun.Container
import CachedRun.LocalRun
import CachedRun.Settings
import CachedRun.Store.Disk

/-!
# The command line

The commands of the program, over a platform that has files, an environment, a clock, a cache
directory, a container daemon and a way to start programs. A command gives back the text that it
prints, or the failure that ends it; nothing is printed before a command has succeeded.

**Keys depend on the runner.** A run in a container folds the id of its image and the version of the
daemon into its key, and a run on this host folds neither (`surroundingsFor`).
-/

set_option autoImplicit false

namespace CachedRun.CommandLine

/-- A cache directory that has been opened. -/
structure OpenCache (m : Type → Type) where
  cache : Cache m
  /-- Removes what has expired and what is too much. -/
  collect : m (Except Fault DiskCache.Collected)

/-- What commands work with. -/
structure Platform (m : Type → Type) where
  /-- The value of an environment variable. -/
  environment : String → Option String
  /-- The content of a file, or the reason why it cannot be read. -/
  readFile : String → m (Except String Bytes)
  openCache : Settings → m (Except Fault (OpenCache m))
  daemon : Daemon m
  /-- Starts a program in a scratch directory. -/
  execute : LocalRun.Launch → FileTree → m (Outcome × FileTree)
  clock : m Instant
  /-- The texts that generated file names are made of. -/
  unique : Nat → String

/-- Why a command fails. -/
inductive Failure where
  | fault (fault : Fault)
  | inputs (flaw : InputFlaw)
  | unknownRunner (name : String)
  | unavailableRunner (name : String)
  deriving Repr, DecidableEq

/-- The wording of a failure. What a system or a document is the cause of is repeated at the end. -/
def Failure.message : Failure → String
  | .fault (.system reason) => s!"{(Fault.system reason).message}: {reason}"
  | .fault (.json reason) => s!"{(Fault.json reason).message}: {reason}"
  | .fault f => f.message
  | .inputs flaw => flaw.message
  | .unknownRunner name => s!"unknown runner: {name}"
  | .unavailableRunner name => s!"runner '{name}' is not available on this host"

/-! ## Texts -/

def helpText : String := "simwps - run configured simulators with result caching

USAGE:
    simwps <command> [options]

COMMANDS:
    validate <config>              Parse a configuration and print a summary
    hash <config> <inputs>         Print the cache key of a request
    run <config> <inputs>          Run a request (or serve it from the cache)
    read-cache <key>               Print cached outputs
    gc                             Remove expired entries and enforce the size limit
    version                        Show version info
    help                           Show this help

OPTIONS:
    --output, -o <id>      Requested output (repeatable; default: all)
    --runner, -r <name>    Runner: docker, local (default: $SIMWPS_RUNNER or docker)
    --cache-dir <dir>      Cache directory (default: $SIMWPS_CACHE_DIR or ~/.simwps/cache)
    --verbose              Debug logging

EXAMPLES:
    simwps validate quakeledger.json
    simwps run quakeledger.json request.json --output selectedRows
    simwps read-cache 3f2a...e9 --output selectedRows

"

def versionText : String := s!"simwps version {Version.current}\n"

/-- One line about a parameter. -/
def parameterLine (title id : String) (binding : Binding) (mechanism : String)
    (isOptional : Bool) : String :=
  let note := if isOptional then ", optional" else ""
  s!"{title}{id} ({binding.key}, {mechanism}{note})\n"

/-- The summary of a configuration. -/
def summary (c : Configuration) : Except Fault String := do
  let inputs ← c.inputs.mapM fun p => do
    return parameterLine "input:    " p.id p.binding (← p.delivery).key p.optional
  let outputs ← c.outputs.mapM fun p => do
    return parameterLine "output:   " p.id p.binding (← p.collection).key p.optional
  let command := " ".intercalate c.command
  return s!"process:  {c.id}\nimage:    {c.image}\nworkdir:  {c.workingDirectory}\n"
    ++ s!"command:  {command}\n" ++ String.join inputs ++ String.join outputs

/-- The document of outputs. -/
def outputsJson (outputs : Outputs) : Json := .object (outputs.map fun (id, v) => (id, v.toJson))

/-- A document as it is printed, with the names of all objects in ascending order. -/
def documentText (fields : List (String × Json)) : String :=
  (Json.object fields).canonical.pretty ++ "\n"

/-! ## Commands -/

variable {m : Type → Type} [Monad m]

/-- A result that fails with a fault. -/
def orFail {α : Type} (result : Except Fault α) : ExceptT Failure m α :=
  ExceptT.mk (return result.mapError Failure.fault)

/-- An attempt that fails with a fault. -/
def attempt {α : Type} (action : m (Except Fault α)) : ExceptT Failure m α :=
  ExceptT.mk do return (← action).mapError Failure.fault

/-- The settings of the environment with what is chosen for the command. -/
def settings (p : Platform m) (o : Options) : Except Fault Settings := do
  let s ← Settings.ofEnvironment p.environment
  return { s with
    runner := o.runner.getD s.runner
    cacheDirectory := o.cacheDirectory <|> s.cacheDirectory }

/-- Reads the configuration in a file. -/
def configuration (p : Platform m) (path : String) : ExceptT Failure m Configuration := do
  let content ← p.readFile path
  orFail (Configuration.load .default path content)

/-- Reads the inputs in a file. -/
def inputs (p : Platform m) (path : String) : ExceptT Failure m Inputs := do
  let content ← p.readFile path
  ExceptT.mk (return (loadInputs path content).mapError Failure.inputs)

/-- What the keys of a runner depend on beside the request. -/
def surroundingsFor (p : Platform m) (runner : String) : Surroundings m :=
  if runner = Container.runnerName then p.daemon.surroundings Daemon.callMillis none
  else { Surroundings.unknown with serviceVersion := some Version.current }

/-- The runners of the platform. -/
def runners (p : Platform m) : Runners m :=
  [Container.runner p.daemon programMillis, LocalRun.runner p.execute programMillis]

def validate (p : Platform m) (config : String) : ExceptT Failure m String := do
  let c ← configuration p config
  orFail (summary c)

def hash (p : Platform m) (config inputFile : String) (o : Options) :
    ExceptT Failure m String := do
  let s ← orFail (settings p o)
  let c ← configuration p config
  let values ← inputs p inputFile
  let process : CachedProcess := ⟨c, .default⟩
  let key ← attempt (process.uncheckedKey (surroundingsFor p s.runner) values o.outputs)
  return key ++ "\n"

def run (p : Platform m) (config inputFile : String) (o : Options) :
    ExceptT Failure m String := do
  let s ← orFail (settings p o)
  let c ← configuration p config
  let values ← inputs p inputFile
  match (runners p).get? s.runner with
  | none => throw (.unknownRunner s.runner)
  | some runner =>
    if !(← runner.isAvailable) then throw (.unavailableRunner runner.name)
    let opened ← attempt (p.openCache s)
    let process : CachedProcess := ⟨c, .default⟩
    let host : Host m := ⟨surroundingsFor p s.runner, opened.cache, runner.run, p.clock⟩
    let answer ← attempt (process.run host p.unique values o.outputs)
    return documentText [("cacheKey", .string answer.key), ("fromCache", .bool answer.fromCache),
      ("outputs", outputsJson answer.outputs)]

def readCache (p : Platform m) (key : String) (o : Options) : ExceptT Failure m String := do
  let s ← orFail (settings p o)
  let opened ← attempt (p.openCache s)
  let outputs ← attempt (opened.cache.read key o.outputs.head?)
  return documentText [("cacheKey", .string key), ("outputs", outputsJson outputs)]

def collect (p : Platform m) (o : Options) : ExceptT Failure m String := do
  let s ← orFail (settings p o)
  let opened ← attempt (p.openCache s)
  let done ← attempt opened.collect
  return s!"removed {done.removed} entries, freed {done.freed} bytes\n"

/-- Performs a command. -/
def perform (p : Platform m) : Command → ExceptT Failure m String
  | .validate config => validate p config
  | .hash config inputs o => hash p config inputs o
  | .run config inputs o => run p config inputs o
  | .readCache key o => readCache p key o
  | .collect o => collect p o
  | .version => return versionText
  | .help => return helpText

/-! ## The program -/

/-- What the program leaves. -/
structure Report where
  exit : Nat
  stdout : String
  /-- The text on the error stream. -/
  error : Option String
  deriving Repr, DecidableEq

/-- Runs the program with arguments. Those that are not understood are answered with the help. -/
def program (p : Platform m) (arguments : List String) : m Report := do
  match Command.ofArguments arguments with
  | .error misuse => return ⟨1, helpText, some s!"error: {misuse.message}"⟩
  | .ok command =>
    match ← (perform p command).run with
    | .ok text => return ⟨0, text, none⟩
    | .error failure => return ⟨1, "", some s!"error: {failure.message}"⟩

end CachedRun.CommandLine
