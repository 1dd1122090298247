import CachedRun.Run

/-!
# Runners

A runner executes the program of a request and gives back what it left. Whatever way it takes, it
starts programs of the host, and a started program has one of three outcomes: it could not be
started, it ran longer than it may, or it came to an end.

Runners are found by name. Of two runners with one name the first is found.
-/

set_option autoImplicit false

namespace CachedRun

/-- What a program left that came to its end. -/
structure Ended where
  /-- The exit code; a program that was ended by a signal has none. -/
  exit : Option Int
  stdout : Bytes
  stderr : Bytes
  deriving Repr, DecidableEq

namespace Ended

def isSuccess (e : Ended) : Bool := e.exit = some 0

/-- The exit code as it is reported. -/
def code (e : Ended) : Int := e.exit.getD (-1)

/-- The output stream as text without blanks around it. -/
def answer (e : Ended) : String := Text.trimmed (Text.decodeLossy e.stdout)

/-- The error stream as text without blanks around it. -/
def complaint (e : Ended) : String := Text.trimmed (Text.decodeLossy e.stderr)

end Ended

/-- What became of a program. -/
inductive Outcome where
  | notStarted (reason : String)
  | timedOut
  | ended (e : Ended)
  deriving Repr, DecidableEq

/-- The end of a program, or the fault of a runner whose operation did not get there. -/
def Outcome.orFault (runner operation : String) (millis : Nat) : Outcome → Except Fault Ended
  | .notStarted reason => .error (.runnerFailed runner s!"{operation}: {reason}")
  | .timedOut => .error (.timeout operation millis)
  | .ended e => .ok e

/-- The time that a program may run if nothing else is said, in milliseconds: one hour. -/
def programMillis : Nat := 3600 * 1000

/-- Executes requests. -/
structure Runner (m : Type → Type) where
  name : String
  /-- Whether programs can be run on this host. -/
  isAvailable : m Bool
  run : RunRequest → m (Except Fault RunOutput)

/-- The runners to choose from. -/
abbrev Runners (m : Type → Type) := List (Runner m)

namespace Runners

variable {m : Type → Type}

/-- Adds a runner behind all others. -/
def register (runners : Runners m) (runner : Runner m) : Runners m := runners ++ [runner]

/-- The first runner of a name. -/
def get? (runners : Runners m) (name : String) : Option (Runner m) :=
  runners.find? fun runner => runner.name = name

/-- The runners that are available, in their order. -/
def available [Monad m] (runners : Runners m) : m (List (Runner m)) :=
  runners.filterM Runner.isAvailable

end Runners

end CachedRun
