import CachedRun.CommandLine
import CachedRun.Shell

/-!
# The machine that the command line runs on

A machine is what the program sees of its surroundings: files, the working directory, the
environment and the time. `Machine.platform` makes it the platform of the commands, so a whole
invocation of the program is a function from one machine to the next. A program may break off on the
way, which leaves the machine as it was by then.

Scripts that can be called by name lie in the directory `bin` below the working directory; the
container daemon is one of them, if it is there.
-/

set_option autoImplicit false

namespace CachedRun.CommandLine

/-- What the program sees of its surroundings. -/
structure Machine where
  tree : FileTree
  /-- The working directory. -/
  directory : Path
  environment : List (String × String)
  /-- The time. Each look at it takes a millisecond. -/
  now : Instant
  /-- The number of temporary files that have been named. -/
  named : Nat

namespace Machine

/-- The path that a text means. -/
def place (directory : Path) (text : String) : Path :=
  (Component.ofText text).foldl (fun path part =>
    match part with
    | .root => []
    | .current => path
    | .parent => path.dropLast
    | .name n => path ++ [n]) directory

/-- The value of an environment variable. -/
def value? (environment : List (String × String)) (name : String) : Option String :=
  (environment.find? fun v => v.1 = name).map Prod.snd

/-- The cache directory if nothing else is said. -/
def defaultCache (environment : List (String × String)) : String :=
  match value? environment "HOME" with
  | some home => home ++ "/.simwps/cache"
  | none => ".simwps/cache"

/-- The places that a command reads or writes, as texts. -/
def places (environment : List (String × String)) (command : Command) : List String :=
  let cache (o : Options) : String :=
    let set? := (value? environment "SIMWPS_CACHE_DIR").filter (· ≠ "")
    (o.cacheDirectory <|> set?).getD (defaultCache environment)
  match command with
  | .validate config => [config]
  | .hash config inputs _ => [config, inputs]
  | .run config inputs o => [config, inputs, cache o]
  | .readCache _ o | .collect o => [cache o]
  | .version | .help => []

/-- The scripts that can be called by name. -/
def programs (mc : Machine) : List (String × Bytes) :=
  let directory := mc.directory ++ ["bin"]
  (mc.tree.names directory).filterMap fun name =>
    (mc.tree.file? (directory ++ [name])).map fun content => (name, content)

/-- What the program does on a machine: it changes the machine, and it may break off. -/
abbrev Work := OptionT (StateM Machine)

/-- Looks at the clock. -/
def tick : Work Instant := modifyGet fun mc =>
  let nanos : Nat := mc.now.nanos + 1000000
  let seconds : Nat := nanos / 1000000000
  (mc.now, { mc with now := ⟨mc.now.seconds + seconds, nanos % 1000000000⟩ })

/-- A cache directory of a machine. Entries are found in one that has no name too, but nothing in it
is collected. -/
def cacheAt (c : DiskCache) (hasName : Bool) : OpenCache Work where
  cache := {
    get := fun key => do
      let now ← tick
      let mc ← get
      OptionT.mk (pure (c.get? mc.tree now key))
    put := fun key entry => modifyGet fun mc =>
      let unique := s!"{mc.now.seconds}-{mc.named}"
      let (result, tree) := c.put mc.tree unique key entry
      (result, { mc with tree, named := mc.named + 1 }) }
  collect := do
    let now ← tick
    OptionT.mk (modifyGet fun mc =>
      if !hasName then (some (.ok ⟨0, 0⟩), mc)
      else
        let (result, tree) := c.collect? mc.tree now
        (result, { mc with tree }))

/-- Opens the cache directory of settings. -/
def openCache (environment : List (String × String)) (s : Settings) :
    Work (Except Fault (OpenCache Work)) := modifyGet fun mc =>
  let shown := s.cacheDirectory.getD (defaultCache environment)
  match DiskCache.create mc.tree (place mc.directory shown) shown with
  | .error fault => (.error fault, mc)
  | .ok (c, tree) =>
    let c := { c with lifetime := s.cacheLifetime, maxBytes := s.cacheLimit }
    (.ok (cacheAt c (shown ≠ "")), { mc with tree })

/-- The limit of a call that may take as long as it takes, in milliseconds: a thousand years. -/
def longMillis : Nat := 1000 * 366 * 24 * 3600 * 1000

/-- The daemon of a machine, which runs in the working directory. -/
def daemon : Daemon Work where
  program := Container.runnerName
  call arguments stdin limit := modifyGet fun mc =>
    let launch := ⟨Container.runnerName, arguments, stdin, limit.getD longMillis⟩
    let (outcome, tree) := Shell.launch mc.programs mc.directory launch mc.tree
    (outcome, { mc with tree })

/-- Starts a program whose files are those of its scratch directory. -/
def execute (launch : LocalRun.Launch) (scratch : FileTree) :
    Work (Outcome × FileTree) := do
  return Shell.launch (← get).programs [] launch scratch

/-- Reads the file that a text names; no text names none. -/
def readFile (mc : Machine) (text : String) : Except String Bytes :=
  if text = "" then .error FileTree.Flaw.missing.message
  else (mc.tree.read (place mc.directory text)).mapError FileTree.Flaw.message

/-- The machine as the platform of commands. -/
def platform (environment : List (String × String)) : Platform Work where
  environment := value? environment
  readFile text := do return (← get).readFile text
  openCache := openCache environment
  daemon := daemon
  execute := execute
  clock := tick
  unique n := s!"{n}"

/-- What a program leaves that breaks off. -/
def brokenOff : Report := ⟨101, "", none⟩

/-- Runs the program on a machine. -/
def run (mc : Machine) (arguments : List String) : Report × Machine :=
  let (report, mc) := (program (platform mc.environment) arguments).run.run mc
  (report.getD brokenOff, mc)

end Machine

end CachedRun.CommandLine
