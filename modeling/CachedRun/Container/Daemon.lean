import CachedRun.CachedProcess
import CachedRun.Image
import CachedRun.Runner
import CachedRun.Version

/-!
# The container daemon

The daemon is spoken to through its command: a list of arguments, bytes for standard input and a
time limit. Nothing is assumed of what it answers, nor of the monad it answers in.

Beside running containers the daemon knows two things that cache keys depend on: which image a
reference names at the moment, and its own version. A version that has been learnt is not asked for
again, and a question that failed has taught nothing.
-/

set_option autoImplicit false

namespace CachedRun

/-- The command of a container daemon. -/
structure Daemon (m : Type → Type) where
  /-- The program that is called. -/
  program : String
  /-- Calls the program with arguments and standard input. The limit is in milliseconds; without
  one the call takes as long as it takes. -/
  call : List String → Bytes → Option Nat → m Outcome

namespace Daemon

/-- The time that a call may take if nothing else is said, in milliseconds: two minutes. -/
def callMillis : Nat := 120 * 1000

variable {m : Type → Type} [Monad m]

/-- Calls the daemon for an operation of a runner, with a time limit. -/
def ask (d : Daemon m) (runner operation : String) (millis : Nat) (arguments : List String)
    (stdin : Bytes) : ExceptT Fault m Ended := do
  let outcome ← d.call arguments stdin (some millis)
  ExceptT.mk (return outcome.orFault runner operation millis)

/-! ## Images -/

def imageArguments (reference : String) : List String :=
  ["image", "inspect", reference, "--format", "\x7b\x7b.ID\x7d\x7d"]

/-- A fault of a look-up: only a timeout keeps its own kind. -/
def lookupFault (reference : String) : Fault → Fault
  | .timeout operation millis => .timeout operation millis
  | fault => .imageLookupFailed reference fault.message

/-- The id that a finished look-up has printed; a look-up that prints nothing knows none. -/
def imageIdOf (reference : String) (e : Ended) : Except Fault (Option String) :=
  if e.isSuccess then .ok (if e.answer = "" then none else some e.answer)
  else .error (.imageLookupFailed reference e.complaint)

/-- The id of the image that a reference names. -/
def imageId (d : Daemon m) (millis : Nat) (reference : String) :
    m (Except Fault (Option String)) := do
  match Image.validate reference with
  | .error fault => return .error fault
  | .ok () =>
    match ← (d.ask d.program "image inspect" millis (imageArguments reference) []).run with
    | .error fault => return .error (lookupFault reference fault)
    | .ok e => return imageIdOf reference e

/-! ## Versions -/

def versionArguments : List String := ["version", "--format", "\x7b\x7b.Server.Version\x7d\x7d"]

/-- The version that a finished question has printed. -/
def versionOf? (e : Ended) : Option String :=
  if e.isSuccess && e.answer ≠ "" then some e.answer else none

/-- The version of the daemon: the one that is known, or else the answer to a question. -/
def version? (d : Daemon m) (millis : Nat) (known : Option String) : m (Option String) := do
  match known with
  | some version => return some version
  | none =>
    match ← (d.ask d.program "version" millis versionArguments []).run with
    | .error _ => return none
    | .ok e => return versionOf? e

/-- Whether the daemon answers at all. -/
def isAvailable (d : Daemon m) : m Bool := do
  match ← d.call versionArguments [] none with
  | .ended e => return e.isSuccess
  | _ => return false

/-- What the daemon knows of the environment of a key. -/
def surroundings (d : Daemon m) (millis : Nat) (known : Option String) : Surroundings m where
  imageId := d.imageId millis
  runnerVersion := d.version? millis known
  serviceVersion := some Version.current

end Daemon

end CachedRun
