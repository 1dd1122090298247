import CachedRun.Shell.Command
import CachedRun.Shell.Filter
import CachedRun.Shell.Pattern

/-!
# The state of a shell

A part of the stand-in for the programs of a host (`CachedRun/Shell.lean`).

What a script changes while it runs: files, variables, functions, parameters, where its streams
lead, what has been written, how much time has passed, and whether it has stopped. Output goes to
numbered streams, so that the output of a pipeline stage and that of a substitution can be told from
the output of the script itself.

Commands that a script does not wait for are run at once and remembered as jobs with the time at
which they end.
-/

set_option autoImplicit false

namespace CachedRun.Shell

/-- Where output goes. -/
inductive Sink where
  | stream (number : Nat)
  | file (path : Path)
  | nowhere
  deriving Repr, DecidableEq, Inhabited

/-- Why a script does not go on. -/
inductive Stop where
  /-- It has exited with its status. -/
  | exit
  | signal (number : Nat)
  /-- It never comes to an end. -/
  | endless
  /-- It leaves a function, or a file that it reads commands from. -/
  | returned
  /-- It leaves a number of loops. -/
  | leave (loops : Nat)
  /-- It goes on with the next round of a loop, counted from the inside. -/
  | again (loops : Nat)
  deriving Repr, DecidableEq

/-- A command that a script does not wait for. -/
structure Job where
  number : Nat
  status : Nat
  /-- The time at which it ends. -/
  ends : Nat
  /-- Whether it keeps the streams of the whole program open. -/
  holds : Bool

/-- The state of a shell. -/
structure State where
  tree : FileTree
  directory : Path
  assigned : List (Raw × Raw)
  /-- The names whose values stay as they are. -/
  constants : List Raw
  /-- The names whose values other programs see. -/
  exports : List Raw
  functions : List (Raw × Command)
  /-- The name that the script goes by. -/
  name : Raw
  /-- The line and the command of the shell that complaints name. -/
  line : Nat
  command : Option Raw
  /-- The number of the process. -/
  own : Nat
  parameters : List Raw
  status : Nat
  /-- The status of the last substitution. -/
  substituted : Nat
  stop : Option Stop
  millis : Nat
  stdin : Supply
  out : Sink
  err : Sink
  /-- What has been written to each stream. -/
  streams : List (Nat × Raw)
  nextStream : Nat
  /-- The letters of the options that are set. -/
  options : List Char
  /-- Whether a failing command has no consequence but its status. -/
  isTested : Bool
  /-- The number of loops that are running. -/
  loops : Nat
  /-- The variables that the running function gives back, with the values they had before. -/
  hidden : Option (List (Raw × Option Raw))
  /-- What is run on a signal, by its number, or at the end, by zero. -/
  traps : List (Nat × Raw)
  /-- The jobs, last one first. -/
  jobs : List Job
  /-- The time until which jobs of others keep the streams of the whole program open. -/
  heldUntil : Nat
  /-- Scripts that are called by name. -/
  programs : List (String × Bytes)

namespace State

/-- The stream of the output of the whole program. -/
def outStream : Nat := 1

/-- The stream of the errors of the whole program. -/
def errStream : Nat := 2

/-- A shell before its first command. -/
def start (programs : List (String × Bytes)) (tree : FileTree) (directory : Path) (stdin : Raw)
    (name : Raw) : State :=
  { tree, directory, assigned := [], constants := [], exports := [], functions := [], name
    line := 1, command := none, own := 2, parameters := [], status := 0, substituted := 0
    stop := none, millis := 0, stdin := ⟨stdin, false⟩, out := .stream outStream
    err := .stream errStream, streams := [], nextStream := 3, options := [], isTested := false
    loops := 0, hidden := none, traps := [], jobs := [], heldUntil := 0, programs }

/-- What has been written to a stream. -/
def written (s : State) (number : Nat) : Raw :=
  ((s.streams.find? fun e => e.1 = number).map Prod.snd).getD []

/-- Writes text to where a sink leads. -/
def write (s : State) (sink : Sink) (text : Raw) : State :=
  match sink with
  | .stream number =>
    let others := s.streams.filter fun e => e.1 ≠ number
    { s with streams := (number, s.written number ++ text) :: others }
  | .file path =>
    { s with tree := s.tree.set path (.file ((s.tree.file? path).getD [] ++ Raw.toBytes text)) }
  | .nowhere => s

def withStatus (s : State) (status : Nat) : State := { s with status }

/-- Writes a complaint of the shell itself, which names the script, the line, and the command of the
shell that complains. -/
def complain (s : State) (status : Nat) (text : Raw) : State :=
  let place := s.name ++ ": ".toList ++ Decimal.digitsText s.line ++ ": ".toList
  let command := match s.command with
    | some command => command ++ ": ".toList
    | none => []
  (s.write s.err (place ++ command ++ text ++ ['\n'])).withStatus status

def halt (s : State) (stop : Stop) : State := { s with stop := some stop }

/-- Complains and stops the script. -/
def fail (s : State) (text : Raw) : State := (s.complain 2 text).halt .exit

/-! ## Variables -/

/-- Gives a variable a value; that of a constant stays, and the script is over. -/
def set (s : State) (name value : Raw) : State :=
  if s.constants.contains name then s.fail (name ++ ": is read only".toList)
  else { s with assigned := (name, value) :: s.assigned.filter fun v => v.1 ≠ name }

def unset (s : State) (name : Raw) : State :=
  if s.constants.contains name then s.fail (name ++ ": is read only".toList)
  else { s with assigned := s.assigned.filter fun v => v.1 ≠ name }

def decimal (n : Nat) : Raw := Decimal.digitsText n

/-- The value that a variable has been given, if any. -/
def stored? (s : State) (name : Raw) : Option Raw :=
  (s.assigned.find? fun v => v.1 = name).map Prod.snd

/-- The characters that separate the words of an expansion that is not quoted. -/
def separators (s : State) : Raw := (s.stored? "IFS".toList).getD [' ', '\t', '\n']

/-- The value of a parameter, if it is set. -/
def value? (s : State) (name : Raw) : Option Raw :=
  match name with
  | ['@'] => if s.parameters = [] then none else some (Text.joinWith [' '] s.parameters)
  | ['*'] =>
    if s.parameters = [] then none else some (Text.joinWith (s.separators.take 1) s.parameters)
  | ['#'] => some (decimal s.parameters.length)
  | ['?'] => some (decimal s.status)
  | ['$'] => some (decimal s.own)
  | ['-'] => some s.options
  | ['!'] => (s.jobs.head?).map fun job => decimal job.number
  | ['0'] => some s.name
  | name =>
    if name ≠ [] ∧ name.all Char.isDigit then s.parameters[digitsValue 10 name - 1]?
    else if name = "PWD".toList then some (Raw.ofText ("/" ++ "/".intercalate s.directory))
    else s.stored? name

/-! ## Parts of a run -/

/-- The time until which jobs keep the streams of the whole program open. -/
def held (s : State) : Nat :=
  s.jobs.foldl (fun n job => if job.holds then max n job.ends else n) s.heldUntil

/-- What the shell says of a process that a signal has ended. -/
def signalNote (number : Nat) : Raw :=
  match number with
  | 1 => "Hangup\n".toList
  | 3 => "Quit\n".toList
  | 6 => "Aborted\n".toList
  | 9 => "Killed\n".toList
  | 10 => "User defined signal 1\n".toList
  | 11 => "Segmentation fault\n".toList
  | 12 => "User defined signal 2\n".toList
  | 14 => "Alarm clock\n".toList
  | 15 => "Terminated\n".toList
  | _ => []

/-- What a process leaves to the script that has waited for it: files, output, the time that has
passed and its status. A signal that a part of the script sends goes to the script itself, and one
that another program sends ends that program. -/
def rejoin (s : State) (isProgram : Bool) (t : State) : State :=
  let u := { s with
    tree := t.tree, streams := t.streams, nextStream := t.nextStream, millis := t.millis
    stdin := t.stdin, status := t.status, heldUntil := max s.heldUntil t.held }
  match t.stop with
  | some .endless => u.halt .endless
  | some (.signal n) =>
    if isProgram then (u.write s.err (signalNote n)).withStatus (128 + n) else u.halt (.signal n)
  | _ => u

/-- The state in which a part of a script that is a process of its own begins. -/
def apart (s : State) : State := { s with stop := none, traps := [], jobs := [] }

/-- Runs a part whose output is caught instead of written. -/
def catching (s : State) (part : State → State) : Raw × State :=
  let number := s.nextStream
  let t := part { s with out := .stream number, nextStream := number + 1 }
  (t.written number, { t with
    out := s.out
    streams := t.streams.filter fun e => e.1 ≠ number })

/-- Runs a part at the same time as another that has begun at a time and read what was there to be
read. What follows reads the output of the part, which may have no end. The result is also what the
part has left of its input. -/
def feeding (s : State) (begun : Nat) (part : State → State) : Supply × State :=
  let (text, t) := { s with millis := begun }.catching part
  let isEndless : Bool := t.stop = some .endless
  (t.stdin, { t with
    stdin := ⟨text, isEndless⟩
    stop := if isEndless then none else t.stop
    millis := if isEndless then s.millis else max s.millis t.millis })

/-- Runs a command of the shell that complaints name. -/
def naming (s : State) (command : Raw) (part : State → State) : State :=
  { part { s with command := some command } with command := s.command }

/-- Takes over what a tool has left. -/
def afterTool (s : State) (r : Result) : State :=
  let s := r.printed.reverse.foldl (fun (s : State) (isError, text) =>
    s.write (if isError then s.err else s.out) text) { s with tree := r.tree, stdin := r.stdin }
  { s with
    status := r.status
    millis := s.millis + r.millis
    stop := if r.isEndless then some .endless else s.stop }

/-- Calls a tool that is a command of the shell, so that its complaints are those of the shell. -/
def callInside (s : State) (tool : Call → Result) (arguments : List Raw) : State :=
  let r := tool ⟨arguments, s.stdin, s.tree, s.directory⟩
  let t := r.printed.reverse.foldl (fun (s : State) (isError, text) =>
    if isError then s.complain r.status text.dropLast else s.write s.out text) s
  t.withStatus r.status

/-- Calls a tool. Files that it writes and files that its output goes to are both kept. -/
def call (s : State) (tool : Call → Result) (arguments : List Raw) : State :=
  s.afterTool (tool ⟨arguments, s.stdin, s.tree, s.directory⟩)

/-! ## Redirections -/

/-- Sets where a stream leads. -/
def redirect (s : State) (stream : Nat) (sink : Sink) : State :=
  if stream = 1 then { s with out := sink } else if stream = 2 then { s with err := sink } else s

/-- A refused redirection. -/
def refuse (s : State) (verb target reason : Raw) : State × Bool :=
  (s.complain 2 ("cannot ".toList ++ verb ++ " ".toList ++ target ++ ": ".toList ++ reason), false)

/-- Opens a file for output. -/
def openOutput (s : State) (stream : Nat) (keeps : Bool) (target : Raw) : State × Bool :=
  if target = "/dev/null".toList then (s.redirect stream .nowhere, true)
  else if target = "/dev/stdout".toList then (s.redirect stream s.out, true)
  else if target = "/dev/stderr".toList then (s.redirect stream s.err, true)
  else match if target = [] then none else resolve? s.directory target with
    | none => s.refuse "create".toList target "Directory nonexistent".toList
    | some path =>
      let content := if keeps then (s.tree.file? path).getD [] else []
      match s.tree.write path content with
      | .ok tree => ({ s with tree }.redirect stream (.file path), true)
      | .error .isDirectory => s.refuse "create".toList target "Is a directory".toList
      | .error _ => s.refuse "create".toList target "Directory nonexistent".toList

/-- Opens a file for input. -/
def openInput (s : State) (target : Raw) : State × Bool :=
  match (Call.mk [] s.stdin s.tree s.directory).source s.stdin target 0 with
  | .ok stdin => ({ s with stdin }, true)
  | .error .isDirectory => ({ s with stdin := .nothing }, true)
  | .error _ => s.refuse "open".toList target "No such file".toList

/-- Whether a redirection changes standard input. -/
def changesInput (r : Redirection) : Bool :=
  ["<", "<>", "<&", "<<"].contains r.operator && r.stream.getD 0 = 0

/-- Applies one redirection whose target is known; the flag says whether it succeeded. -/
def applyRedirection (s : State) (r : Redirection) (target : Raw) : State × Bool :=
  match r.operator with
  | ">" | ">|" => s.openOutput (r.stream.getD 1) false target
  | ">>" => s.openOutput (r.stream.getD 1) true target
  | "<" | "<>" =>
    let (t, isOpen) := s.openInput target
    ({ t with stdin := if changesInput r then t.stdin else s.stdin }, isOpen)
  | "<<" =>
    ({ s with stdin := if changesInput r then ⟨target, false⟩ else s.stdin }, true)
  | ">&" =>
    let stream := r.stream.getD 1
    match target with
    | ['1'] => (s.redirect stream s.out, true)
    | ['2'] => (s.redirect stream s.err, true)
    | ['-'] => (s.redirect stream .nowhere, true)
    | target =>
      if target ≠ [] ∧ target.all Char.isDigit then
        (s.complain 2 (target ++ ": Bad file descriptor".toList), false)
      else (s.complain 2 "Syntax error: Bad fd number".toList |>.halt .exit, false)
  | _ => (if target = ['-'] ∧ changesInput r then { s with stdin := .nothing } else s, true)

end State

end CachedRun.Shell
