import CachedRun.Fault
import CachedRun.Text.Blank

/-!
# Handlers

After a run, handlers look at what the program left: its error stream, its exit value and its
output stream. A handler decides whether the run counts as failed; one that only logs never does.

What a handler does is a function, so that a registry may be given handlers of any kind. The ones
that are always there are named below, in the namespaces of their streams. Of a handler that logs
nothing is kept, since nobody reads the log.

A handler is known by the name it was created under, and two handlers of one name count as equal.
-/

set_option autoImplicit false

namespace CachedRun

/-- What a handler looks at. -/
inductive Slot where
  | stderr
  | exitValue
  | stdout
  deriving Repr, DecidableEq

/-- The name of a slot in messages and keys. -/
def Slot.key : Slot → String
  | .stderr => "stderr"
  | .exitValue => "exitValue"
  | .stdout => "stdout"

/-- What is done with the error stream. -/
structure StderrCheck where
  run : String → Except Fault Unit

/-- What is done with the exit value. -/
structure ExitCheck where
  run : Int → Except Fault Unit

/-- What is done with the output stream, which cannot make a run fail. -/
structure StdoutCheck where
  run : String → Unit

/-! ## Marks -/

/-- The part of a text that begins with the first occurrence of a mark. -/
def fromMark? (mark : List Char) : List Char → Option (List Char)
  | [] => if mark = [] then some [] else none
  | c :: rest =>
    if (Text.dropStart? mark (c :: rest)).isSome then some (c :: rest) else fromMark? mark rest

def tracebackMark : List Char := "Traceback (most recent call".toList

def errorMark : List Char := "Error".toList

/-- The part of a text that begins with the first occurrence of the error mark at the start of a
line. Occurrences are looked for from left to right; the first argument says whether a line starts
here, and the number how many characters of an occurrence are still to be passed over. -/
def fromErrorLine? (lineStart : Bool) (skip : Nat) : List Char → Option (List Char)
  | [] => none
  | c :: rest =>
    match skip with
    | k + 1 => fromErrorLine? (c == '\n') k rest
    | 0 =>
      if (Text.dropStart? errorMark (c :: rest)).isSome then
        if lineStart then some (c :: rest)
        else fromErrorLine? (c == '\n') (errorMark.length - 1) rest
      else fromErrorLine? (c == '\n') 0 rest

/-! ## The checks that are always there -/

/-- A report as the outcome of a check: there is none if all is well. -/
def reportOf (report : Option (List Char)) : Except Fault Unit :=
  match report with
  | some report => .error (.stderrReport (String.ofList report))
  | none => .ok ()

namespace StderrCheck

def log : StderrCheck := ⟨fun _ => .ok ()⟩

/-- Fails if there is anything. -/
def notEmpty : StderrCheck :=
  ⟨fun stderr => if stderr = "" then .ok () else .error (.stderrNotEmpty stderr)⟩

/-- Fails at a Python traceback. -/
def traceback : StderrCheck :=
  ⟨fun stderr => reportOf (fromMark? tracebackMark stderr.toList)⟩

/-- Fails at a line that begins with `Error`. -/
def errorLine : StderrCheck :=
  ⟨fun stderr => reportOf (fromErrorLine? true 0 stderr.toList)⟩

end StderrCheck

namespace ExitCheck

def log : ExitCheck := ⟨fun _ => .ok ()⟩

def notZero : ExitCheck := ⟨fun code => if code = 0 then .ok () else .error (.nonZeroExit code)⟩

end ExitCheck

namespace StdoutCheck

def log : StdoutCheck := ⟨fun _ => ()⟩

end StdoutCheck

/-! ## Handlers by name -/

/-- A check with the name it was created under. -/
structure Handler (κ : Type) where
  name : String
  check : κ

/-- Handlers of one name are equal. -/
instance {κ : Type} : BEq (Handler κ) := ⟨fun a b => a.name == b.name⟩

end CachedRun
