import CachedRun.Decimal.Layout
import CachedRun.Text.Blank

/-!
# Faults

Everything that can go wrong while a process is configured, run or cached, as one type. A fault
names its cause; its wording is `Fault.message` and nowhere else. `isConfiguration` tells the faults
of an operator, who can mend the configuration, from those of a request or a run.
-/

set_option autoImplicit false

namespace CachedRun

/-- What went wrong. -/
inductive Fault where
  /-- The configuration document cannot be read. -/
  | unreadableConfiguration (reason : String)
  /-- A parameter says nowhere how its value is delivered or collected. -/
  | missingMechanism (id direction : String)
  /-- The parts of a configuration contradict each other. -/
  | inconsistentConfiguration (reason : String)
  | unknownHandler (slot name : String)
  | invalidImage (reference reason : String)
  | invalidSettings (reason : String)
  | missingInput (id : String)
  | invalidInput (id reason : String)
  | unknownOutput (id : String)
  /-- Content cannot be converted to or from a binding. -/
  | conversion (binding reason : String)
  | nonZeroExit (code : Int)
  | stderrNotEmpty (text : String)
  /-- The handler found a report of an error. -/
  | stderrReport (report : String)
  /-- The runner itself failed, not the program. -/
  | runnerFailed (runner reason : String)
  | timeout (operation : String) (millis : Nat)
  | imageLookupFailed (image reason : String)
  | cacheMiss (key : String)
  | cacheUnusable (path reason : String)
  | cacheWrite (reason : String)
  | cacheRead (reason : String)
  /-- The operating system refused something. -/
  | system (reason : String)
  | json (reason : String)
  deriving Repr, DecidableEq, Inhabited

/-- A span of time in seconds, or in milliseconds if it is shorter than a second. -/
def spanText (millis : Nat) : String :=
  if millis = 0 then "0ns"
  else if millis < 1000 then s!"{millis}ms"
  else
    let fraction := Text.dropEndWhile (· == '0') (Decimal.padded 3 (millis % 1000))
    let point := if fraction = [] then [] else ['.']
    String.ofList (Decimal.digitsText (millis / 1000) ++ point ++ fraction ++ ['s'])

example : spanText 1050 = "1.05s" := by decide

namespace Fault

def message : Fault → String
  | .unreadableConfiguration reason => s!"configuration parse error: {reason}"
  | .missingMechanism id direction =>
    s!"there must be a mechanism to handle the {direction} parameter '{id}'"
  | .inconsistentConfiguration reason => s!"invalid configuration: {reason}"
  | .unknownHandler slot name => s!"unknown {slot} handler '{name}'"
  | .invalidImage reference reason => s!"invalid image reference '{reference}': {reason}"
  | .invalidSettings reason => s!"invalid settings: {reason}"
  | .missingInput id => s!"missing value for required input '{id}'"
  | .invalidInput id reason => s!"invalid value for input '{id}': {reason}"
  | .unknownOutput id => s!"unknown output '{id}'"
  | .conversion binding reason => s!"cannot convert {binding} data: {reason}"
  | .nonZeroExit code => s!"exit value is not zero: {code}"
  | .stderrNotEmpty text => s!"stderr is not empty: {text}"
  | .stderrReport report => s!"error reported on stderr: {report}"
  | .runnerFailed runner reason => s!"{runner} runner failed: {reason}"
  | .timeout operation millis => s!"operation '{operation}' timed out after {spanText millis}"
  | .imageLookupFailed image reason => s!"failed to resolve image '{image}': {reason}"
  | .cacheMiss key => s!"no cached result for key {key}"
  | .cacheUnusable path reason => s!"failed to initialize cache at {path}: {reason}"
  | .cacheWrite reason => s!"cache write failed: {reason}"
  | .cacheRead reason => s!"cache read failed: {reason}"
  | .system reason => s!"I/O error: {reason}"
  | .json reason => s!"JSON error: {reason}"

/-- Faults that the configuration causes, and not the request. -/
def isConfiguration : Fault → Bool
  | .unreadableConfiguration _ | .missingMechanism .. | .inconsistentConfiguration _
  | .unknownHandler .. | .invalidImage .. | .invalidSettings _ => true
  | _ => false

end Fault

end CachedRun
