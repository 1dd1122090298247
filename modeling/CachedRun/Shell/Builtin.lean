import CachedRun.Shell.Arithmetic
import CachedRun.Shell.Condition
import CachedRun.Shell.Expansion

/-!
# Commands of the shell

A part of the stand-in for the programs of a host (`CachedRun/Shell.lean`).

The commands that change the state of the shell itself, or that it runs without a program:
variables, parameters, options, loops, signals and jobs, the working directory, conditions and
printing. Those that run other commands are not here.
-/

set_option autoImplicit false

namespace CachedRun.Shell

/-! ## Signals -/

/-- The names of the signals with their numbers. -/
def signals : List (String × Nat) :=
  [("EXIT", 0), ("HUP", 1), ("INT", 2), ("QUIT", 3), ("ILL", 4), ("TRAP", 5), ("ABRT", 6),
    ("BUS", 7), ("FPE", 8), ("KILL", 9), ("USR1", 10), ("SEGV", 11), ("USR2", 12), ("PIPE", 13),
    ("ALRM", 14), ("TERM", 15), ("STKFLT", 16), ("CHLD", 17), ("CONT", 18), ("STOP", 19),
    ("TSTP", 20), ("TTIN", 21), ("TTOU", 22), ("URG", 23), ("XCPU", 24), ("XFSZ", 25),
    ("VTALRM", 26), ("PROF", 27), ("WINCH", 28), ("IO", 29), ("PWR", 30), ("SYS", 31)]

/-- The number of a signal that is given by name or number. -/
def signalNumber? (s : Raw) : Option Nat :=
  let name := String.ofList (s.map Char.toUpper)
  match signals.find? fun signal => signal.1 = name with
  | some (_, n) => some n
  | none =>
    if s ≠ [] ∧ s.all Char.isDigit ∧ digitsValue 10 s < 65 then some (digitsValue 10 s) else none

/-- The name of a signal. -/
def signalName (number : Nat) : String :=
  ((signals.find? fun signal => signal.2 = number).map Prod.fst).getD
    (String.ofList (Decimal.digitsText number))

/-- Whether a process does not mind a signal that it does not expect. -/
def isHarmless (signal : Nat) : Bool := [0, 17, 18, 23, 28].contains signal

/-- The number that digits spell. -/
def natural? (s : Raw) : Option Nat :=
  if s ≠ [] ∧ s.all Char.isDigit then some (digitsValue 10 s) else none

namespace State

/-- Sends a signal to a process: the shell itself or one of its jobs. -/
def send (s : State) (signal : Nat) (target : Raw) : State :=
  match natural? target with
  | none => s.complain 2 ("Illegal number: ".toList ++ target)
  | some number =>
    if number = s.own then
      if isHarmless signal ∨ s.traps.any (fun t => t.1 = signal && t.2 = []) then s
      else s.halt (.signal signal)
    else if s.jobs.any fun job => job.number = number then
      { s with jobs := s.jobs.map fun job =>
          if job.number = number ∧ s.millis < job.ends ∧ !isHarmless signal then
            { job with status := 128 + signal, ends := s.millis }
          else job }
    else s.complain 1 "No such process\n".toList

/-- Sends a signal to processes. -/
def kill (s : State) (arguments : List Raw) : State :=
  let sendAll (signal : Nat) (targets : List Raw) : State :=
    if targets = [] then
      s.complain 2 ("Usage: kill [-s sigspec | -signum | -sigspec] [pid | job]... or\n".toList
        ++ "kill -l [exitstatus]".toList)
    else targets.foldl (fun s target => s.send signal target) (s.withStatus 0)
  match arguments with
  | ['-', 's'] :: name :: targets =>
    match signalNumber? name with
    | some signal => sendAll signal targets
    | none => s.complain 2 ("invalid signal number or name: ".toList ++ name)
  | ['-', '-'] :: targets => sendAll 15 targets
  | ('-' :: name) :: targets =>
    match signalNumber? name with
    | some signal => sendAll signal targets
    | none => s.complain 2 ("Illegal option -".toList ++ name.take 1)
  | targets => sendAll 15 targets

/-- The traps as commands that set them. -/
def trapTexts (s : State) : Raw :=
  (s.traps.mergeSort fun a b => a.1 ≤ b.1).flatMap fun (signal, action) =>
    let quoted := action.flatMap fun c => if c = '\'' then "'\"'\"'".toList else [c]
    "trap -- '".toList ++ quoted ++ "' ".toList ++ (signalName signal).toList ++ ['\n']

/-- Sets what is run on signals. -/
def trap (s : State) (arguments : List Raw) : State :=
  let setAll (action? : Option Raw) (names : List Raw) : State :=
    names.foldl (fun s name =>
      match signalNumber? name with
      | none =>
        (s.write s.err ("trap: ".toList ++ name ++ ": bad trap\n".toList)).withStatus 1
      | some signal =>
        let others := s.traps.filter fun t => t.1 ≠ signal
        { s with traps := match action? with
            | some action => (signal, action) :: others
            | none => others }) (s.withStatus 0)
  match arguments with
  | [] => (s.write s.out s.trapTexts).withStatus 0
  | [name] => setAll none [name]
  | ['-', '-'] :: action :: names => setAll (some action) names
  | ['-'] :: names => setAll none names
  | action :: names => setAll (some action) names

/-- Waits for jobs: all of them, or those that are named. -/
def wait (s : State) (arguments : List Raw) : State :=
  let waitFor (s : State) (job : Job) : State := { s with millis := max s.millis job.ends }
  match arguments with
  | [] => (s.jobs.foldl waitFor s).withStatus 0
  | arguments => arguments.foldl (fun s a =>
    match s.jobs.find? fun job => some job.number = natural? a with
    | some job =>
      let s := (waitFor s job).withStatus job.status
      s.write s.err (signalNote (job.status - 128))
    | none => s.withStatus 127) s

/-! ## Variables and parameters -/

/-- Handles arguments that are names with or without a value. -/
def eachName (s : State) (arguments : List Raw) (handle : State → Raw → Option Raw → State) :
    State :=
  arguments.foldl (fun s a =>
    let (name, value?) := match Text.splitAtFirst? '=' a with
      | some (name, value) => (name, some value)
      | none => (a, none)
    if s.stop.isSome then s
    else if !isName name then s.fail (name ++ ": bad variable name".toList)
    else handle s name value?) (s.withStatus 0)

def setIfGiven (s : State) (name : Raw) (value? : Option Raw) : State :=
  match value? with
  | some value => s.set name value
  | none => s

def exportAll (s : State) (arguments : List Raw) : State :=
  s.eachName arguments fun s name value? =>
    let s := s.setIfGiven name value?
    { s with exports := name :: s.exports }

def freezeAll (s : State) (arguments : List Raw) : State :=
  s.eachName arguments fun s name value? =>
    let s := s.setIfGiven name value?
    { s with constants := name :: s.constants }

/-- Makes variables of a function its own. -/
def hide (s : State) (arguments : List Raw) : State :=
  match s.hidden with
  | none => s.fail "not in a function".toList
  | some _ => s.eachName arguments fun s name value? =>
    let entry := (name, s.stored? name)
    { s with hidden := s.hidden.map (entry :: ·) }.setIfGiven name value?

/-- Gives back the variables that a function has made its own. -/
def unhide (s : State) : State :=
  (s.hidden.getD []).foldl (fun s (name, value?) =>
    match value? with
    | some value => s.set name value
    | none => s.unset name) s

def unsetAll (s : State) (arguments : List Raw) : State :=
  match arguments with
  | ['-', 'f'] :: names =>
    { s with functions := s.functions.filter fun f => !names.contains f.1, status := 0 }
  | arguments =>
    let names := if arguments.head? = some ['-', 'v'] then arguments.drop 1 else arguments
    s.eachName names fun s name _ => s.unset name

/-- The letters of the options that can be set. -/
def optionLetters : List Char := "abefhmnuvxBCEIV".toList

/-- The letters of the options that can be set by a name. -/
def optionNames : List (String × Char) :=
  [("errexit", 'e'), ("nounset", 'u'), ("noglob", 'f'), ("noexec", 'n'), ("xtrace", 'x'),
    ("verbose", 'v'), ("allexport", 'a'), ("noclobber", 'C')]

/-- Sets the options and parameters of the shell. -/
def setOptions (s : State) : List Raw → State
  | [] => s
  | ['-', '-'] :: rest => { s with parameters := rest }
  | ['-', 'o'] :: name :: rest =>
    match optionNames.find? fun o => o.1 = String.ofList name with
    | some (_, letter) => setOptions { s with options := letter :: s.options } rest
    | none => s.fail ("Illegal option -o ".toList ++ name)
  | ('-' :: letters) :: rest =>
    match letters.find? fun l => !optionLetters.contains l with
    | some letter => s.fail ("Illegal option -".toList ++ [letter])
    | none =>
      if letters = [] then { s with parameters := rest }
      else
        let others := s.options.filter (!letters.contains ·)
        setOptions { s with options := letters.reverse ++ others } rest
  | ('+' :: letters) :: rest =>
    setOptions { s with options := s.options.filter (!letters.contains ·) } rest
  | rest => { s with parameters := rest }

/-- Drops the first parameters. -/
def shift (s : State) (arguments : List Raw) : State :=
  match arguments with
  | [] => if s.parameters = [] then s.fail "can't shift that many".toList
    else { s with parameters := s.parameters.drop 1 }.withStatus 0
  | a :: _ =>
    match natural? a with
    | none => s.fail ("Illegal number: ".toList ++ a)
    | some n =>
      if s.parameters.length < n then s.fail "can't shift that many".toList
      else { s with parameters := s.parameters.drop n }.withStatus 0

/-- Joins lines that end with a backslash, and drops other backslashes: the text of a line, and what
follows it if the line has an end. -/
def unescapedLine : Raw → Raw × Option Raw
  | [] => ([], none)
  | '\n' :: rest => ([], some rest)
  | '\\' :: '\n' :: rest => unescapedLine rest
  | '\\' :: c :: rest =>
    let (line, rest) := unescapedLine rest
    (c :: line, rest)
  | c :: rest =>
    let (line, rest) := unescapedLine rest
    (c :: line, rest)

/-- A line as it stands, and what follows it if the line has an end. -/
def rawLine (s : Raw) : Raw × Option Raw :=
  let line := s.takeWhile (· ≠ '\n')
  (line, if line.length < s.length then some (s.drop (line.length + 1)) else none)

/-- Sets variables to the words of a line; the last one gets the rest of the line. -/
def assignWords (s : State) : List Raw → Raw → State
  | [], _ => s
  | [name], line =>
    let isBlankSeparator (c : Char) : Bool := s.separators.contains c && (isBlank c || c = '\n')
    s.set name (Text.dropEndWhile isBlankSeparator (line.dropWhile isBlankSeparator))
  | name :: rest, line =>
    let isSeparator (c : Char) : Bool := s.separators.contains c
    let isBlankSeparator (c : Char) : Bool := isSeparator c && (isBlank c || c = '\n')
    let line := line.dropWhile isBlankSeparator
    let word := line.takeWhile fun c => !isSeparator c
    let after := (line.drop word.length).dropWhile isBlankSeparator
    let after := if after.head?.any isSeparator then after.drop 1 else after
    (s.set name word).assignWords rest after

/-- Reads a line of standard input into variables. -/
def readLine (s : State) (arguments : List Raw) : State :=
  let isRaw := arguments.head? = some ['-', 'r']
  let names := if isRaw then arguments.drop 1 else arguments
  match names.find? fun name => !isName name with
  | some name => s.complain 2 (name ++ ": bad variable name".toList)
  | none =>
    if names = [] then s.complain 2 "arg count".toList
    else
      let (line, rest?) := if isRaw then rawLine s.stdin.text else unescapedLine s.stdin.text
      if rest?.isNone ∧ s.stdin.isEndless then s.halt .endless
      else
        let s := { s with stdin := { s.stdin with text := rest?.getD [] } }
        (s.assignWords names line).withStatus (if rest?.isSome then 0 else 1)

/-! ## Other commands -/

/-- Changes the working directory. -/
def changeDirectory (s : State) (target : Raw) : State :=
  match look s.tree s.directory (if target = [] then ['.'] else target) with
  | .ok (path, .directory) => { s with directory := path, status := 0 }
  | _ => s.complain 2 ("can't cd to ".toList ++ target)

/-- Stops with the status that is given, or the last one. -/
def stopWith (s : State) (stop : Stop) (arguments : List Raw) : State :=
  match arguments with
  | [] => s.halt stop
  | a :: _ =>
    match natural? a with
    | some n => (s.withStatus (n % 256)).halt stop
    | none => s.fail ("Illegal number: ".toList ++ a)

/-- Leaves as many loops as are given, or one, if as many are running. -/
def leaveLoops (s : State) (stop : Nat → Stop) (arguments : List Raw) : State :=
  let count? := match arguments with
    | [] => some 1
    | a :: _ => natural? a
  match count?, s.loops with
  | none, _ | some 0, _ => s.fail ("Illegal number: ".toList ++ arguments.head?.getD [])
  | _, 0 => s.withStatus 0
  | some n, loops => (s.withStatus 0).halt (stop (min n loops))

/-- Whether a condition holds, as a status. -/
def test (s : State) (arguments : List Raw) : State :=
  match Condition.holds s.tree s.directory arguments with
  | .ok true => s.withStatus 0
  | .ok false => s.withStatus 1
  | .error text => s.complain 2 (Raw.ofText text)

/-- The commands of the shell that need no script to be run. -/
def builtin? (s : State) (name : String) (arguments : List Raw) : Option State :=
  let own (f : State → State) : Option State := some (s.naming name.toList f)
  match name with
  | ":" | "true" | "umask" | "hash" | "ulimit" | "jobs" => some (s.withStatus 0)
  | "false" => some (s.withStatus 1)
  | "exit" => own (·.stopWith .exit arguments)
  | "return" => own (·.stopWith .returned arguments)
  | "echo" => own (·.callInside (Shell.echo true) arguments)
  | "printf" => own (·.callInside (Shell.printf true) arguments)
  | "test" => own (·.test arguments)
  | "[" =>
    own fun s =>
      if arguments.getLast? = some [']'] then s.test arguments.dropLast
      else s.complain 2 "missing ]".toList
  | "cd" => own (·.changeDirectory (arguments.head?.getD ['.']))
  | "pwd" => some ((s.write s.out ((s.value? "PWD".toList).getD [] ++ ['\n'])).withStatus 0)
  | "export" => own (·.exportAll arguments)
  | "readonly" => own (·.freezeAll arguments)
  | "local" => own (·.hide arguments)
  | "unset" => own (·.unsetAll arguments)
  | "set" => own fun s => (s.withStatus 0).setOptions arguments
  | "shift" => own (·.shift arguments)
  | "read" => own (·.readLine arguments)
  | "break" => own (·.leaveLoops .leave arguments)
  | "continue" => own (·.leaveLoops .again arguments)
  | "trap" => own (·.trap arguments)
  | "wait" => own (·.wait arguments)
  | "kill" => own (·.kill arguments)
  | _ => none

end State

end CachedRun.Shell
