import CachedRun.Shell.Builtin
import CachedRun.Shell.Grammar

/-!
# Programs that scripts call

A part of the stand-in for the programs of a host (`CachedRun/Shell.lean`).

What a script finds under a name that is no command of the shell: a tool, a shell with a script of
its own, a script that is called by name, or nothing. A program sees the exported variables and has
functions, options and jobs of its own.
-/

set_option autoImplicit false

namespace CachedRun.Shell

/-- A time in seconds, or in another unit whose letter follows, as milliseconds. -/
def readMillis? (s : Raw) : Option Nat :=
  let whole := s.takeWhile Char.isDigit
  let (fraction, rest) := match s.drop whole.length with
    | '.' :: rest => (rest.takeWhile Char.isDigit, rest.dropWhile Char.isDigit)
    | rest => ([], rest)
  let unit? : Option Nat := match rest with
    | [] | ['s'] => some 1
    | ['m'] => some 60
    | ['h'] => some 3600
    | ['d'] => some 86400
    | _ => none
  let millis :=
    digitsValue 10 whole * 1000 + digitsValue 10 ((fraction ++ ['0', '0', '0']).take 3)
  if whole = [] ∧ fraction = [] then none else unit?.map fun unit => millis * unit

/-- Waits as long as its arguments say. -/
def sleep (c : Call) : Result :=
  let r := Result.start c
  match c.arguments.find? fun a => (readMillis? a).isNone with
  | some a => r.misused "sleep" s!"invalid time interval '{a.toText}'"
  | none =>
    if c.arguments = [] then r.misused "sleep" "missing operand"
    else { r with millis := total (c.arguments.filterMap readMillis?) }

/-- The tools that are there as programs. -/
def tool? (name : String) : Option (Call → Result) :=
  match name with
  | "cat" => some cat
  | "ls" => some ls
  | "mkdir" => some mkdir
  | "cp" => some cp
  | "head" => some head
  | "tr" => some tr
  | "wc" => some wc
  | "printf" => some (printf false)
  | "echo" => some (echo false)
  | "sleep" => some sleep
  | "true" => some Result.start
  | "false" => some fun c => (Result.start c).withStatus 1
  | _ => none

/-- The name of a program without the directories that programs lie in. -/
def programName (name : Raw) : String :=
  let text := name.toText
  (["/bin/", "/usr/bin/"].findSome? fun directory =>
    (Text.dropStart? directory.toList text.toList).map String.ofList).getD text

/-- The arguments of a shell: the script or the file it is in, and its name and parameters. -/
inductive Invocation where
  | text (script name : Raw) (parameters : List Raw)
  | file (path : Raw) (parameters : List Raw)
  | stdin (parameters : List Raw)
  /-- A script is announced and not given. -/
  | incomplete

/-- Reads the arguments of a shell with the letters of its options. -/
def readInvocation (name : Raw) (letters : List Char) : List Raw → List Char × Invocation
  | [] => (letters, if letters.contains 'c' then .incomplete else .stdin [])
  | a :: rest =>
    match a with
    | '-' :: c :: more =>
      if a = ['-', '-'] then readInvocation name ('s' :: letters) rest
      else readInvocation name (letters ++ c :: more) rest
    | a => (letters,
        if letters.contains 'c' then .text a (rest.head?.getD name) (rest.drop 1)
        else if letters.contains 's' then .stdin (a :: rest)
        else .file a rest)

namespace State

/-- The file that a program lies in, with its content, if it is known by that name or path. -/
def script? (s : State) (name : Raw) : Option Bytes :=
  (s.programs.find? fun p => p.1 = name.toText).map Prod.snd

/-- The state in which another program begins: it has the exported variables and no more. -/
def program (s : State) (name : Raw) (parameters : List Raw) : State :=
  { State.start s.programs s.tree s.directory [] name with
    own := s.own + 1, parameters, stdin := s.stdin, out := s.out, err := s.err
    streams := s.streams, nextStream := s.nextStream, millis := s.millis
    assigned := s.assigned.filter fun v => s.exports.contains v.1, exports := s.exports }

/-- The script that a program is, with the state that it begins in: a script that is known by its
name, or the script that a shell is given. -/
def scriptOf? (s : State) (name : Raw) (arguments : List Raw) : Option (Raw × State) :=
  match s.script? name with
  | some content => some (Raw.ofBytes content, s.program name arguments)
  | none =>
    if programName name ≠ "sh" ∧ programName name ≠ "dash" then none
    else
      let (letters, invocation) := readInvocation name [] arguments
      let shell (name : Raw) (parameters : List Raw) : State :=
        { s.program name parameters with options := letters.filter ['e', 'u', 'f'].contains }
      match invocation with
      | .incomplete => none
      | .text script name parameters => some (script, shell name parameters)
      | .stdin parameters => some (s.stdin.text, { shell name parameters with stdin := .nothing })
      | .file path parameters =>
        match look s.tree s.directory path with
        | .ok (_, .file content) => some (Raw.ofBytes content, shell path parameters)
        | _ => none

/-- Programs that are neither tools nor shells, and those that are not there. -/
def otherProgram (s : State) (name : Raw) (text : String) (arguments : List Raw) : State :=
  match text with
  | "sh" | "dash" =>
    let reason := match arguments.find? fun a => a.head? ≠ some '-' with
      | some path => "cannot open ".toList ++ path ++ ": No such file\n".toList
      | none => "-c requires an argument\n".toList
    (s.write s.err (name ++ ": 0: ".toList ++ reason)).withStatus 2
  | "test" => s.test arguments
  | "[" => s.test arguments.dropLast
  | "kill" => s.kill arguments
  | "env" => s.withStatus 0
  | _ =>
    if name.contains '/' ∧ (look s.tree s.directory name).toOption.isSome then
      s.complain 126 (name ++ ": Permission denied".toList)
    else s.complain 127 (name ++ ": not found".toList)

/-- The names that the shell knows by itself, as it shows them. -/
def shownCommand? (s : State) (name : Raw) : Option Raw :=
  let text := String.ofList name
  if s.functions.any (fun f => f.1 = name) ∨ Grammar.keywords.contains text
      ∨ (s.builtin? text []).isSome ∨ Command.isSpecial name ∨ text = "command" then some name
  else if (tool? text).isSome ∨ text = "sh" ∨ text = "env" then some ("/usr/bin/".toList ++ name)
  else none

/-- Shows what the shell knows under names. -/
def showCommands (s : State) (names : List Raw) : State :=
  names.foldl (fun s name =>
    match s.shownCommand? name with
    | some text => s.write s.out (text ++ ['\n'])
    | none => s.withStatus 127) (s.withStatus 0)

end State

end CachedRun.Shell
