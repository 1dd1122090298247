import CachedRun.Key
import CachedRun.Run
import CachedRun.Store.Entry

/-!
# Cached processes

A cached process answers requests. A request is checked, its key is made, and the cache is asked
for the key; only if the cache has nothing readable is the program run, and only a run that the
handlers accept and whose outputs can be collected is stored.

What surrounds a process (the cache, the runner, the clock, the daemon that knows image ids) may
have effects, so a process is written over a monad `m` and takes its surroundings as a `Host`.
Everything else is a function of the request.
-/

set_option autoImplicit false

namespace CachedRun

/-- A cache of entries by key. -/
structure Cache (m : Type → Type) where
  get : String → m (Except Fault (Option Entry))
  put : String → Entry → m (Except Fault Unit)

/-- What knows the environment that keys depend on. -/
structure Surroundings (m : Type → Type) where
  /-- The identity of an image, if it is known. -/
  imageId : String → m (Except Fault (Option String))
  runnerVersion : m (Option String)
  serviceVersion : Option String

/-- The environment of a configuration. -/
def Surroundings.environment {m : Type → Type} [Monad m] (s : Surroundings m)
    (c : Configuration) : m (Except Fault Key.Environment) := do
  match ← s.imageId c.image with
  | .error fault => return .error fault
  | .ok imageId =>
    let runnerVersion ← s.runnerVersion
    return .ok ⟨imageId, runnerVersion, s.serviceVersion⟩

/-- Nothing is known of the environment. -/
def Surroundings.unknown {m : Type → Type} [Monad m] : Surroundings m :=
  ⟨fun _ => pure (.ok none), pure none, none⟩

/-- What a cached process works with. -/
structure Host (m : Type → Type) where
  surroundings : Surroundings m
  cache : Cache m
  run : RunRequest → m (Except Fault RunOutput)
  clock : m Instant

/-- A configuration with the registry that its handlers must be known to. -/
structure CachedProcess where
  configuration : Configuration
  registry : Registry

/-- The answer to a request. -/
structure Answer where
  key : String
  fromCache : Bool
  outputs : Outputs
  deriving Repr

namespace CachedProcess

/-! ## Checks -/

/-- Outputs that are asked for must be declared. -/
def checkRequested (c : Configuration) (requested : List String) : Except Fault Unit :=
  match requested.find? fun id => (c.output? id).isNone with
  | some id => .error (.unknownOutput id)
  | none => .ok ()

/-- The value of an input must be valid, and may be missing only if the input is optional. -/
def checkInput (inputs : Inputs) (p : InputParameter) : Except Fault Unit :=
  match inputs.first? p.id with
  | some v => p.validate v
  | none => if p.optional then .ok () else .error (.missingInput p.id)

/-- Inputs that are given must be declared, and each must pass its check. -/
def checkInputs (c : Configuration) (inputs : Inputs) : Except Fault Unit :=
  match inputs.find? fun entry => (c.input? entry.1).isNone with
  | some (id, _) => .error (.invalidInput id "not an input of this process")
  | none => c.inputs.forM (checkInput inputs)

/-- All checks of a request. -/
def check (c : Configuration) (inputs : Inputs) (requested : List String) : Except Fault Unit := do
  checkRequested c requested
  checkInputs c inputs

/-! ## Answers -/

variable {m : Type → Type} [Monad m]

/-- The key of a request without any checks. -/
def uncheckedKey (p : CachedProcess) (s : Surroundings m) (inputs : Inputs)
    (requested : List String) : m (Except Fault String) := do
  match ← s.environment p.configuration with
  | .error fault => return .error fault
  | .ok environment =>
    return Key.ofRequest p.registry p.configuration environment inputs requested

/-- The key of a request that passes the checks. -/
def key (p : CachedProcess) (s : Surroundings m) (inputs : Inputs) (requested : List String) :
    m (Except Fault String) :=
  match check p.configuration inputs requested with
  | .error fault => return .error fault
  | .ok () => p.uncheckedKey s inputs requested

/-- Runs the program for a request. Generated names are made of the given texts. -/
def execute (p : CachedProcess) (host : Host m) (unique : Nat → String) (inputs : Inputs)
    (requested : List String) : m (Except Fault Outputs) := do
  let selected := Run.selected p.configuration requested
  match Run.assemble unique p.configuration inputs selected with
  | .error fault => return .error fault
  | .ok request =>
    match ← host.run request with
    | .error fault => return .error fault
    | .ok output => return do
      Run.judge p.configuration output
      Run.collect selected output

/-- Runs the program for a request and stores the outputs under its key. -/
def refresh (p : CachedProcess) (host : Host m) (unique : Nat → String) (inputs : Inputs)
    (requested : List String) (key : String) : m (Except Fault Answer) := do
  match ← p.execute host unique inputs requested with
  | .error fault => return .error fault
  | .ok outputs =>
    let now ← host.clock
    match ← host.cache.put key ⟨p.configuration.id, now, outputs⟩ with
    | .error fault => return .error fault
    | .ok () => return .ok ⟨key, false, outputs⟩

/-- Answers a request. An entry that cannot be read is no answer and no fault. -/
def run (p : CachedProcess) (host : Host m) (unique : Nat → String) (inputs : Inputs)
    (requested : List String) : m (Except Fault Answer) := do
  match ← p.key host.surroundings inputs requested with
  | .error fault => return .error fault
  | .ok key =>
    match ← host.cache.get key with
    | .ok (some entry) => return .ok ⟨key, true, entry.outputs⟩
    | .ok none | .error _ => p.refresh host unique inputs requested key

end CachedProcess

/-- The outputs of a cached entry, or the one that is asked for. -/
def selectCached (key : String) (output : Option String) (entry : Option Entry) :
    Except Fault Outputs :=
  match entry, output with
  | none, _ => .error (.cacheMiss key)
  | some entry, none => .ok entry.outputs
  | some entry, some id =>
    match entry.outputs.find? id with
    | some v => .ok [(id, v)]
    | none => .error (.unknownOutput id)

/-- Reads outputs from a cache. -/
def Cache.read {m : Type → Type} [Monad m] (cache : Cache m) (key : String)
    (output : Option String) : m (Except Fault Outputs) := do
  match ← cache.get key with
  | .error fault => return .error fault
  | .ok entry => return selectCached key output entry

end CachedRun
