import CachedRun.CommandLine
import CachedRun.Proofs.Result
import CachedRun.Proofs.Text.Utf8

/-!
# Printed keys — and the keys that are used

One command prints the key of a request, and another one runs the request under its key. Both read
the request in the same way (`load`) and make the key in the same surroundings. But a run begins with
checks, of the outputs that are asked for and of the inputs, and the command that prints does
without. So **every key that is used is printed, and what is printed is used exactly if the request
passes the checks** (`prints_key`); of a request that no run accepts a key is printed all the same,
if there is one without the checks (`KeyPrinting.refused`).

What the files and the daemon say may differ from time to time, so the two keys are compared from one
state of the platform. A run has looked for its runner and opened its cache before it makes a key;
if that changes nothing of the key, then the key in its answer is the printed one
(`KeyPrinting.answered`).
-/

set_option autoImplicit false

namespace CachedRun.CommandLine

open Result

/-! ## Requests -/

/-- A request as it has been read for a command. -/
structure Request where
  settings : Settings
  process : CachedProcess
  inputs : Inputs
  outputs : List String

section

variable {m : Type → Type} [Monad m]

/-- Reads the request of a command. -/
def load (p : Platform m) (config inputFile : String) (o : Options) : ExceptT Failure m Request := do
  let s ← orFail (settings p o)
  let c ← configuration p config
  let values ← inputs p inputFile
  return ⟨s, ⟨c, .default⟩, values, o.outputs⟩

/-- What a request is run with, if its runner is there and the cache can be opened. -/
def equip (p : Platform m) (s : Settings) : ExceptT Failure m (Host m) :=
  match (runners p).get? s.runner with
  | none => throw (.unknownRunner s.runner)
  | some runner => do
    if !(← runner.isAvailable) then throw (.unavailableRunner runner.name)
    let opened ← attempt (p.openCache s)
    return ⟨surroundingsFor p s.runner, opened.cache, runner.run, p.clock⟩

/-- The text that answers a run. -/
def answerText (answer : Answer) : String :=
  documentText [("cacheKey", .string answer.key), ("fromCache", .bool answer.fromCache),
    ("outputs", outputsJson answer.outputs)]

namespace Request

/-- Whether the outputs that are asked for and the inputs are what the process declares. -/
def check (r : Request) : Except Fault Unit :=
  CachedProcess.check r.process.configuration r.inputs r.outputs

/-- The key that a run looks for in the cache. -/
def key (r : Request) (p : Platform m) : m (Except Fault String) :=
  r.process.key (surroundingsFor p r.settings.runner) r.inputs r.outputs

/-- The key without the checks. -/
def uncheckedKey (r : Request) (p : Platform m) : m (Except Fault String) :=
  r.process.uncheckedKey (surroundingsFor p r.settings.runner) r.inputs r.outputs

variable {r : Request} {p : Platform m}

theorem key_of_check_ok (h : r.check = .ok ()) : r.key p = r.uncheckedKey p := by
  rw [check] at h
  rw [key, CachedProcess.key, h]
  rfl

theorem key_of_check_error {fault : Fault} (h : r.check = .error fault) :
    r.key p = pure (.error fault) := by
  rw [check] at h
  rw [key, CachedProcess.key, h]

end Request

/-- The key that a run of the request would look for in the cache. -/
def usedKey (p : Platform m) (config inputFile : String) (o : Options) :
    ExceptT Failure m String := do
  let r ← load p config inputFile o
  attempt (r.key p)

variable [LawfulMonad m] (p : Platform m) (config inputFile : String) (o : Options)

theorem hash_eq : hash p config inputFile o = (do
    let r ← load p config inputFile o
    let key ← attempt (r.uncheckedKey p)
    return key ++ "\n") := by
  simp only [hash, load, bind_assoc, pure_bind]
  rfl

theorem throw_bind {α β : Type} (failure : Failure) (f : α → ExceptT Failure m β) :
    (throw failure >>= f) = throw failure := by
  ext
  simp

theorem run_eq : run p config inputFile o = (do
    let r ← load p config inputFile o
    let host ← equip p r.settings
    let answer ← attempt (r.process.run host p.unique r.inputs r.outputs)
    return answerText answer) := by
  simp only [run, load, bind_assoc, pure_bind]
  refine bind_congr fun s => bind_congr fun c => bind_congr fun values => ?_
  rw [equip]
  cases (runners p).get? s.runner with
  | none => exact (throw_bind ..).symm
  | some runner =>
    simp only [bind_assoc]
    refine bind_congr fun available => ?_
    cases available with
    | false =>
      simp only [Bool.not_false, if_true, throw_bind]
    | true =>
      simp only [Bool.not_true, Bool.false_eq_true, if_false, bind_assoc, pure_bind]
      rfl

end

/-! ## Runs of the commands -/

section

variable {σ : Type} {t t' t₁ : σ} {p : Platform (StateM σ)} {config inputFile : String}
  {o : Options} {r : Request} {key : String} {failure : Failure} {fault : Fault}

theorem run_attempt {α : Type} (action : StateM σ (Except Fault α)) (t : σ) :
    (attempt action).run.run t =
      ((action.run t).1.mapError Failure.fault, (action.run t).2) := rfl

theorem attempt_eq_ok_iff {α : Type} {action : StateM σ (Except Fault α)} {a : α} :
    (attempt action).run.run t = (.ok a, t') ↔ action.run t = (.ok a, t') := by
  rw [run_attempt, Prod.ext_iff, Prod.ext_iff, mapError_eq_ok_iff]

/-! ### Keys -/

theorem Request.key_eq_ok_iff : (r.key p).run t = (.ok key, t') ↔
    r.check = .ok () ∧ (r.uncheckedKey p).run t = (.ok key, t') := by
  cases h : r.check with
  | error fault =>
    rw [r.key_of_check_error h]
    constructor
    · rintro ⟨⟩
    · rintro ⟨⟨⟩, -⟩
  | ok _ =>
    rw [r.key_of_check_ok h]
    simp

theorem usedKey_of_load (h : (load p config inputFile o).run.run t = (.ok r, t₁)) :
    (usedKey p config inputFile o).run.run t = (attempt (r.key p)).run.run t₁ := by
  rw [usedKey, run_bind_of_ok h]

theorem hash_of_load (h : (load p config inputFile o).run.run t = (.ok r, t₁)) :
    (hash p config inputFile o).run.run t =
      (((attempt (r.uncheckedKey p)).run.run t₁).1.map (· ++ "\n"),
        ((attempt (r.uncheckedKey p)).run.run t₁).2) := by
  rw [hash_eq, run_bind_of_ok h]
  cases hkey : (attempt (r.uncheckedKey p)).run.run t₁ with
  | mk result t' =>
    cases result with
    | error failure => rw [run_bind_of_error hkey]; rfl
    | ok key => rw [run_bind_of_ok hkey]; rfl

/-- A key is used if the request passes the checks. -/
theorem used_iff_of_load (h : (load p config inputFile o).run.run t = (.ok r, t₁)) :
    (usedKey p config inputFile o).run.run t = (.ok key, t') ↔
      r.check = .ok () ∧ (r.uncheckedKey p).run t₁ = (.ok key, t') := by
  rw [usedKey_of_load h, attempt_eq_ok_iff, Request.key_eq_ok_iff]

/-- A key is printed whether or not the request passes the checks. -/
theorem printed_iff_of_load (h : (load p config inputFile o).run.run t = (.ok r, t₁)) :
    (hash p config inputFile o).run.run t = (.ok (key ++ "\n"), t') ↔
      (r.uncheckedKey p).run t₁ = (.ok key, t') := by
  rw [hash_of_load h, ← attempt_eq_ok_iff, Prod.ext_iff, Prod.ext_iff, map_eq_ok_iff]
  simp

/-! ### Answers -/

section

variable {process : CachedProcess} {host : Host (StateM σ)} {unique : Nat → String}
  {values : Inputs} {requested : List String} {answer : Answer} {text : String}

theorem key_of_refresh
    (h : (process.refresh host unique values requested key).run t = (.ok answer, t')) :
    answer.key = key := by
  rw [CachedProcess.refresh, run_bind] at h
  split at h
  · cases h
  · rw [run_bind, run_bind] at h
    split at h
    · cases h
    · cases h
      rfl

/-- An answer is given under the key of the request. -/
theorem key_of_run (h : (process.run host unique values requested).run t = (.ok answer, t')) :
    ((process.key host.surroundings values requested).run t).1 = .ok answer.key := by
  rw [CachedProcess.run, run_bind] at h
  cases hkey : ((process.key host.surroundings values requested).run t).1 with
  | error fault =>
    rw [hkey] at h
    cases h
  | ok key =>
    rw [hkey] at h
    dsimp only at h
    rw [run_bind] at h
    split at h
    · cases h
      rfl
    · exact congrArg Except.ok (key_of_refresh h).symm
    · exact congrArg Except.ok (key_of_refresh h).symm

theorem surroundings_of_equip {s : Settings} (h : (equip p s).run.run t = (.ok host, t')) :
    host.surroundings = surroundingsFor p s.runner := by
  rw [equip] at h
  split at h
  · cases h
  · obtain ⟨available, t₁, -, h⟩ := run_bind_eq_ok_iff.mp h
    cases available with
    | false => cases h
    | true =>
      obtain ⟨opened, t₂, -, h⟩ := run_bind_eq_ok_iff.mp h
      cases h
      rfl

/-- A run of a request that is refused fails, for that reason if it gets there. -/
theorem run_of_refusal (h : (load p config inputFile o).run.run t = (.ok r, t₁))
    (hcheck : r.check = .error fault) : ∃ failure t',
      (run p config inputFile o).run.run t = (.error failure, t') ∧
      (failure = .fault fault ∨ (equip p r.settings).run.run t₁ = (.error failure, t')) := by
  rw [run_eq, run_bind_of_ok h]
  cases hequip : (equip p r.settings).run.run t₁ with
  | mk result t₂ =>
    cases result with
    | error failure =>
      rw [run_bind_of_error hequip]
      exact ⟨failure, t₂, rfl, .inr rfl⟩
    | ok host =>
      have hkey : r.process.key host.surroundings r.inputs r.outputs = pure (.error fault) := by
        rw [surroundings_of_equip hequip]
        exact r.key_of_check_error hcheck
      have hrun : (attempt (r.process.run host p.unique r.inputs r.outputs)).run.run t₂ =
          (.error (.fault fault), t₂) := by
        rw [run_attempt, CachedProcess.run, hkey, pure_bind]
        rfl
      rw [run_bind_of_ok hequip, run_bind_of_error hrun]
      exact ⟨.fault fault, t₂, rfl, .inl rfl⟩

/-- A run that answers says the key that its request had when it came to it. -/
theorem run_of_answer (h : (run p config inputFile o).run.run t = (.ok text, t')) :
    ∃ r t₁ host t₂ answer, (load p config inputFile o).run.run t = (.ok r, t₁) ∧
      (equip p r.settings).run.run t₁ = (.ok host, t₂) ∧
      ((r.key p).run t₂).1 = .ok answer.key ∧ text = answerText answer := by
  rw [run_eq] at h
  obtain ⟨r, t₁, hload, h⟩ := run_bind_eq_ok_iff.mp h
  obtain ⟨host, t₂, hequip, h⟩ := run_bind_eq_ok_iff.mp h
  obtain ⟨answer, t₃, hanswer, h⟩ := run_bind_eq_ok_iff.mp h
  have hkey := key_of_run (attempt_eq_ok_iff.mp hanswer)
  rw [surroundings_of_equip hequip] at hkey
  obtain ⟨htext, -⟩ := Prod.ext_iff.mp h
  exact ⟨r, t₁, host, t₂, answer, hload, hequip, hkey, (Except.ok.inj htext).symm⟩

end

/-! ### The two keys -/

/-- What the key that is printed has to do with the one that is used. -/
structure KeyPrinting (p : Platform (StateM σ)) (config inputFile : String) (o : Options)
    (t : σ) : Prop where
  /-- A key that is used is printed. -/
  used : ∀ {key t'}, (usedKey p config inputFile o).run.run t = (.ok key, t') →
    (hash p config inputFile o).run.run t = (.ok (key ++ "\n"), t')
  /-- A request that cannot be read has no key. -/
  unread : ∀ {failure t'}, (load p config inputFile o).run.run t = (.error failure, t') →
    (usedKey p config inputFile o).run.run t = (.error failure, t') ∧
    (hash p config inputFile o).run.run t = (.error failure, t') ∧
    (run p config inputFile o).run.run t = (.error failure, t')
  /-- If a request passes the checks, then what would be used is printed, be it a key or a
  failure. -/
  passed : ∀ {r t₁ result t'}, (load p config inputFile o).run.run t = (.ok r, t₁) →
    r.check = .ok () → (usedKey p config inputFile o).run.run t = (result, t') →
    (hash p config inputFile o).run.run t = (result.map (· ++ "\n"), t')
  /-- If a request is refused, then no run answers it. A key is printed all the same, unless there
  is none even without the checks. -/
  refused : ∀ {r t₁ fault}, (load p config inputFile o).run.run t = (.ok r, t₁) →
    r.check = .error fault →
    (usedKey p config inputFile o).run.run t = (.error (.fault fault), t₁) ∧
    (∃ failure t', (run p config inputFile o).run.run t = (.error failure, t') ∧
      (failure = .fault fault ∨ (equip p r.settings).run.run t₁ = (.error failure, t'))) ∧
    ∀ key t', (hash p config inputFile o).run.run t = (.ok (key ++ "\n"), t') ↔
      (r.uncheckedKey p).run t₁ = (.ok key, t')
  /-- So the two agree exactly if the request passes the checks or has no key without them. -/
  agree : (∀ key t', (hash p config inputFile o).run.run t = (.ok (key ++ "\n"), t') ↔
      (usedKey p config inputFile o).run.run t = (.ok key, t')) ↔
    ∀ r t₁, (load p config inputFile o).run.run t = (.ok r, t₁) → r.check = .ok () ∨
      ∀ key t', (r.uncheckedKey p).run t₁ ≠ (.ok key, t')
  /-- A run that answers says the key that its request had when it came to it, and if that is the
  key at first, then it is printed. -/
  answered : ∀ {text t'}, (run p config inputFile o).run.run t = (.ok text, t') →
    ∃ r t₁ host t₂ answer, (load p config inputFile o).run.run t = (.ok r, t₁) ∧
      (equip p r.settings).run.run t₁ = (.ok host, t₂) ∧
      ((r.key p).run t₂).1 = .ok answer.key ∧ text = answerText answer ∧
      (((r.key p).run t₁).1 = ((r.key p).run t₂).1 →
        ∃ t₃, (hash p config inputFile o).run.run t = (.ok (answer.key ++ "\n"), t₃))

theorem exists_load_of_used (h : (usedKey p config inputFile o).run.run t = (.ok key, t')) :
    ∃ r t₁, (load p config inputFile o).run.run t = (.ok r, t₁) := by
  rw [usedKey] at h
  obtain ⟨r, t₁, hload, -⟩ := run_bind_eq_ok_iff.mp h
  exact ⟨r, t₁, hload⟩

theorem exists_load_of_printed
    (h : (hash p config inputFile o).run.run t = (.ok (key ++ "\n"), t')) :
    ∃ r t₁, (load p config inputFile o).run.run t = (.ok r, t₁) := by
  rw [hash_eq] at h
  obtain ⟨r, t₁, hload, -⟩ := run_bind_eq_ok_iff.mp h
  exact ⟨r, t₁, hload⟩

theorem printed_of_used (h : (usedKey p config inputFile o).run.run t = (.ok key, t')) :
    (hash p config inputFile o).run.run t = (.ok (key ++ "\n"), t') := by
  obtain ⟨r, t₁, hload⟩ := exists_load_of_used h
  exact (printed_iff_of_load hload).mpr ((used_iff_of_load hload).mp h).2

theorem agree_iff : (∀ key t', (hash p config inputFile o).run.run t = (.ok (key ++ "\n"), t') ↔
      (usedKey p config inputFile o).run.run t = (.ok key, t')) ↔
    ∀ r t₁, (load p config inputFile o).run.run t = (.ok r, t₁) → r.check = .ok () ∨
      ∀ key t', (r.uncheckedKey p).run t₁ ≠ (.ok key, t') := by
  constructor
  · intro h r t₁ hload
    cases hcheck : r.check with
    | ok _ => exact .inl rfl
    | error fault =>
      refine .inr fun key t' hkey => ?_
      have hused := (h key t').mp ((printed_iff_of_load hload).mpr hkey)
      have hpassed := ((used_iff_of_load hload).mp hused).1
      rw [hcheck] at hpassed
      cases hpassed
  · intro h key t'
    constructor
    · intro hprinted
      -- A key is printed for a request that could be loaded, and the condition speaks of that
      -- request.
      obtain ⟨r, t₁, hload⟩ := exists_load_of_printed hprinted
      have hkey := (printed_iff_of_load hload).mp hprinted
      rcases h r t₁ hload with hcheck | hnone
      · exact (used_iff_of_load hload).mpr ⟨hcheck, hkey⟩
      · exact absurd hkey (hnone key t')
    · exact printed_of_used

/-- **The printed key is the key that is used**, if the request passes the checks. They are made for
a run, and not for the command that prints. Both load the same things in the same order, so nothing
else can set them apart. -/
theorem prints_key (p : Platform (StateM σ)) (config inputFile : String) (o : Options) (t : σ) :
    KeyPrinting p config inputFile o t where
  used := printed_of_used
  unread := by
    intro failure t' hload
    refine ⟨run_bind_of_error hload, ?_, ?_⟩
    · rw [hash_eq, run_bind_of_error hload]
    · rw [run_eq, run_bind_of_error hload]
  passed := by
    intro r t₁ result t' hload hcheck hused
    rw [usedKey_of_load hload, r.key_of_check_ok hcheck] at hused
    rw [hash_of_load hload, hused]
  refused := by
    intro r t₁ fault hload hcheck
    refine ⟨?_, run_of_refusal hload hcheck, fun _ _ => printed_iff_of_load hload⟩
    rw [usedKey_of_load hload, r.key_of_check_error hcheck]
    rfl
  agree := agree_iff
  answered := by
    -- An answer carries the key that the host looked up, in the state after the loading.
    intro text t' hrun
    obtain ⟨r, t₁, host, t₂, answer, hload, hequip, hkey, htext⟩ := run_of_answer hrun
    refine ⟨r, t₁, host, t₂, answer, hload, hequip, hkey, htext, fun hsame => ?_⟩
    have hfirst : (r.key p).run t₁ = (.ok answer.key, ((r.key p).run t₁).2) :=
      Prod.ext (hsame.trans hkey) rfl
    exact ⟨_, (printed_iff_of_load hload).mpr (Request.key_eq_ok_iff.mp hfirst).2⟩

/-! A sounding needs a depth, and a request without one is hashed. -/

def soundingDocument : String :=
  "\x7b\"title\":\"sounding\",\"imageId\":\"sounding\",\"workingDirectory\":\"/\"," ++
  "\"commandToExecute\":\"sounding\",\"input\":[" ++
  "\x7b\"title\":\"depth\",\"useAs\":\"commandLineArgument\",\"type\":\"double\"\x7d]\x7d"

/-- A host where one configuration lies, and no input has a value. -/
def vessel : Platform (StateM Unit) where
  environment := fun _ => none
  readFile := fun path =>
    pure (.ok (Text.bytes (if path = "sounding.json" then soundingDocument else "\x7b\x7d")))
  openCache := fun _ => pure (.ok ⟨⟨fun _ => pure (.ok none), fun _ _ => pure (.ok ())⟩,
    pure (.ok ⟨0, 0⟩)⟩)
  daemon := ⟨"docker", fun _ _ _ => pure (.notStarted "no such program")⟩
  execute := fun _ tree => pure (.ended ⟨some 0, [], []⟩, tree)
  clock := pure ⟨0, 0⟩
  unique := toString

def onHost : Options := ⟨[], some "local", none⟩

theorem exists_sounding : ∃ c, Configuration.read .default soundingDocument = .ok c ∧
    (CachedProcess.check c [] [],
      (Key.fields .default c ⟨none, none, some Version.current⟩ [] []).isOk) =
        (.error (.missingInput "depth"), true) := map_eq_ok_iff.mp (by decide +kernel)

/-- The request for a sounding, without a depth. -/
def soundingRequest (c : Configuration) : Request :=
  ⟨{ Settings.default with runner := "local" }, ⟨c, .default⟩, [], []⟩

theorem load_sounding {c : Configuration}
    (h : Configuration.read .default soundingDocument = .ok c) :
    (load vessel "sounding.json" "inputs.json" onHost).run.run () =
      (.ok (soundingRequest c), ()) := by
  -- The three things that are loaded, one after the other.
  have hsettings : (orFail (settings vessel onHost) : ExceptT Failure (StateM Unit) _).run.run () =
      (.ok { Settings.default with runner := "local" }, ()) := rfl
  have hconfiguration : (configuration vessel "sounding.json").run.run () = (.ok c, ()) := by
    have hload : Configuration.load .default "sounding.json" (.ok (Text.bytes soundingDocument)) =
        .ok c := by
      have hsize : ¬ (Text.bytes soundingDocument).length > Configuration.maxFileSize := by
        rw [Text.length_bytes]
        decide +kernel
      rw [Configuration.load, if_neg hsize, Text.decode_bytes]
      exact h
    exact congrArg (fun result : Except Fault Configuration =>
      (result.mapError Failure.fault, ())) hload
  have hinputs : (inputs vessel "inputs.json").run.run () = (.ok [], ()) := by
    have hload : loadInputs "inputs.json" (.ok (Text.bytes "\x7b\x7d")) = .ok [] := by
      rw [loadInputs, Text.decode_bytes]
      rfl
    exact congrArg (fun result : Except InputFlaw Inputs =>
      (result.mapError Failure.inputs, ())) hload
  rw [load, run_bind_of_ok hsettings, run_bind_of_ok hconfiguration, run_bind_of_ok hinputs]
  rfl

/-- Its key is printed, and no run looks for it. -/
theorem refused_sounding_hashed : ∃ key,
    (hash vessel "sounding.json" "inputs.json" onHost).run.run () = (.ok (key ++ "\n"), ()) ∧
    (usedKey vessel "sounding.json" "inputs.json" onHost).run.run () =
      (.error (.fault (.missingInput "depth")), ()) ∧
    (run vessel "sounding.json" "inputs.json" onHost).run.run () =
      (.error (.fault (.missingInput "depth")), ()) := by
  -- The document is read once, and both the check and the fields are about what was read.
  obtain ⟨c, hread, hc⟩ := exists_sounding
  obtain ⟨hcheck, hfields⟩ := Prod.ext_iff.mp hc
  have hload := load_sounding hread
  cases hl : Key.fields .default c ⟨none, none, some Version.current⟩ [] [] with
  | error fault =>
    rw [hl] at hfields
    cases hfields
  | ok l =>
    have hkey : ((soundingRequest c).uncheckedKey vessel).run () =
        (.ok (Key.fingerprint l), ()) :=
      congrArg (fun result : Except Fault (List Key.Field) =>
        (result.map Key.fingerprint, ())) hl
    refine ⟨Key.fingerprint l, (printed_iff_of_load hload).mpr hkey, ?_, ?_⟩
    · rw [usedKey_of_load hload, (soundingRequest c).key_of_check_error hcheck]
      rfl
    · obtain ⟨failure, u, hrun, rfl | hequip⟩ := run_of_refusal hload hcheck
      · exact hrun
      · cases hequip

end

end CachedRun.CommandLine
