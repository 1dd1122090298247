import CachedRun.Decimal.Literal
import CachedRun.Store.Memory
import CachedRun.Fault

/-!
# Settings

The command line is set up by four variables of its environment. One that is not set, and an empty
cache directory, leaves the default in place; a limit must be a positive number.

A limit is given in larger units than it is kept in, and the product is taken in a word of eight
bytes. Nobody looks whether it fits: an optimised build of the program keeps the lower part of it,
which is what is written here. A build with checks stops at such a number.
-/

set_option autoImplicit false

namespace CachedRun

/-- How the command line is set up. -/
structure Settings where
  /-- The cache directory, if it is not the default one. -/
  cacheDirectory : Option String
  runner : String
  /-- In bytes. -/
  cacheLimit : Nat
  /-- In seconds. -/
  cacheLifetime : Nat
  deriving Repr, DecidableEq

namespace Settings

def default : Settings :=
  ⟨none, "docker", MemoryCache.defaultMaxWeight, MemoryCache.defaultLifetime⟩

/-- The runners that may be chosen by a variable. -/
def knownRunners : List String := ["docker", "local"]

/-- A positive number of eight bytes, with blanks allowed around it. -/
def positive (name value : String) : Except Fault Nat :=
  match Decimal.readNat (Nat.pow 2 64 - 1) (Text.trim value.toList) with
  | .ok n =>
    if 0 < n then .ok n
    else .error (.invalidSettings s!"{name}: expected a positive integer, got '{value}'")
  | .error _ => .error (.invalidSettings s!"{name}: expected a positive integer, got '{value}'")

/-- Replaces the runner by a known one. -/
def withRunner (s : Settings) : Option String → Except Fault Settings
  | none => .ok s
  | some runner =>
    if runner ∈ knownRunners then .ok { s with runner }
    else .error (.invalidSettings s!"SIMWPS_RUNNER: unknown runner '{runner}'")

/-- A product in a word of eight bytes, of which the upper part is lost. -/
def wordProduct (a b : Nat) : Nat := a * b % Nat.pow 2 64

/-- Replaces the limit of the cache, given in MiB. -/
def withLimit (s : Settings) : Option String → Except Fault Settings
  | none => .ok s
  | some value => (positive "SIMWPS_CACHE_MAX_MB" value).map fun n =>
      { s with cacheLimit := wordProduct n (1024 * 1024) }

/-- Replaces the lifetime of the cache, given in days. -/
def withLifetime (s : Settings) : Option String → Except Fault Settings
  | none => .ok s
  | some value => (positive "SIMWPS_CACHE_TTL_DAYS" value).map fun n =>
      { s with cacheLifetime := wordProduct n (24 * 60 * 60) }

/-- The settings of an environment. -/
def ofEnvironment (lookup : String → Option String) : Except Fault Settings := do
  let directory := (lookup "SIMWPS_CACHE_DIR").filter fun d => d ≠ ""
  let s ← withRunner { default with cacheDirectory := directory } (lookup "SIMWPS_RUNNER")
  let s ← s.withLimit (lookup "SIMWPS_CACHE_MAX_MB")
  s.withLifetime (lookup "SIMWPS_CACHE_TTL_DAYS")

end Settings

end CachedRun
