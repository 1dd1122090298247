import CachedRun.CommandLine
import CachedRun.Proofs.Container.Daemon
import CachedRun.Proofs.Key.Framing

/-!
# Shared keys — of a run in a container and a run on this host

The name of the runner is no part of a key. What tells the keys of two runners apart is that only a
run in a container asks the daemon: then the id of the image takes the place of its reference, and a
version stands where there is none otherwise. But the daemon need not say anything, and the id may be
what the reference was. **The two runners share the key of a request exactly if the daemon tells
nothing** (`runners_share_iff`), and a result that a run on this host has left in the cache is then
the answer to a run in a container (`run_of_tellsNothing`).

Nothing is assumed of how much the daemon says. A reference that it is asked about is short, and a
stream that is equal to a short one is as short (`Key.Field.pair_inj`).
-/

set_option autoImplicit false

namespace CachedRun

open Result

/-! ## Where the environment stands in a stream -/

namespace Key

variable {registry : Registry} {c : Configuration} {e e' : Environment} {inputs : Inputs}
  {requested : List String} {l rest : List Field}

/-- The environment stands in the fields of the process, and nowhere else. -/
theorem exists_rest (h : fields registry c e inputs requested = .ok l) : ∃ rest, ∀ e',
    fields registry c e' inputs requested = .ok (processFields c e' ++ rest) := by
  rw [fields, bind_eq_ok_iff] at h
  obtain ⟨inputParts, hinputs, h⟩ := h
  obtain ⟨outputParts, houtputs, h⟩ := bind_eq_ok_iff.mp h
  obtain ⟨handlers, hhandlers, -⟩ := bind_eq_ok_iff.mp h
  refine ⟨(Field.count "inputs" c.inputs.length :: inputParts.flatten)
    ++ (Field.count "outputs" c.outputs.length :: outputParts.flatten) ++ handlers
    ++ Field.list "requested" requested, fun e' => ?_⟩
  rw [fields, hinputs, houtputs, hhandlers]
  simp [bind, Except.bind, pure, Except.pure]

/-- In environments with one service, a request has one stream exactly if the image and the runner
are the same. Only one of them must be short. -/
theorem stream_eq_iff_of_service (hservice : e'.serviceVersion = e.serviceVersion)
    (hshort : (Field.text "image" (e.imageId.getD c.image)).bytes.length +
      (Field.optional "runner.version" e.runnerVersion).bytes.length < 2 ^ 64) :
    stream (processFields c e' ++ rest) = stream (processFields c e ++ rest) ↔
      e'.imageId.getD c.image = e.imageId.getD c.image ∧ e'.runnerVersion = e.runnerVersion := by
  constructor
  · intro h
    simp only [stream, processFields, hservice, List.cons_append, List.nil_append,
      List.flatMap_cons, List.append_cancel_left_eq] at h
    simp only [← List.append_assoc, List.append_left_inj] at h
    obtain ⟨himage, hrunner⟩ := Field.pair_inj hshort h
    exact ⟨Field.text_inj.mp himage, Field.optional_inj.mp hrunner⟩
  · rintro ⟨himage, hrunner⟩
    rw [processFields, processFields, himage, hrunner, hservice]

end Key

/-! ## The streams of two runners -/

namespace CommandLine

section

variable {m : Type → Type} [Monad m]

/-- What the key of a request is made from, for a runner. -/
def streamFor (p : Platform m) (runner : String) (process : CachedProcess) (values : Inputs)
    (requested : List String) : m (Except Fault Bytes) := do
  match ← (surroundingsFor p runner).environment process.configuration with
  | .error fault => return .error fault
  | .ok environment =>
    return (Key.fields process.registry process.configuration environment values requested).map
      Key.stream

/-- The key that is made from a stream. -/
def keyOf (stream : Bytes) : String := String.ofList (Digest.hex (Digest.sha256 stream))

theorem uncheckedKey_eq [LawfulMonad m] (p : Platform m) (runner : String)
    (process : CachedProcess) (values : Inputs) (requested : List String) :
    process.uncheckedKey (surroundingsFor p runner) values requested =
      Except.map keyOf <$> streamFor p runner process values requested := by
  simp only [CachedProcess.uncheckedKey, streamFor, map_bind]
  refine bind_congr fun environment => ?_
  cases environment with
  | error fault => simp [Except.map]
  | ok environment =>
    simp only [Key.ofRequest, map_pure]
    cases Key.fields process.registry process.configuration environment values requested <;> rfl

end

section

variable {σ : Type} {p : Platform (StateM σ)} {process : CachedProcess} {values : Inputs}
  {requested : List String} {t t' u u' : σ} {a b : Bytes}

/-- Off the daemon, only the service is known. -/
def hostEnvironment : Key.Environment := ⟨none, none, some Version.current⟩

theorem run_environment_of_ne {runner : String} (h : runner ≠ Container.runnerName)
    (c : Configuration) (t : σ) :
    ((surroundingsFor p runner).environment c).run t = (.ok hostEnvironment, t) := by
  rw [surroundingsFor, if_neg h]
  rfl

/-- Where a stream is made, the runner's environment is known, and the fields of the request. -/
theorem exists_of_streamFor {runner : String}
    (h : (streamFor p runner process values requested).run t = (.ok a, t')) :
    ∃ environment l,
      ((surroundingsFor p runner).environment process.configuration).run t =
        (.ok environment, t') ∧
      Key.fields process.registry process.configuration environment values requested = .ok l ∧
      Key.stream l = a := by
  rw [streamFor, run_bind] at h
  cases henvironment :
      ((surroundingsFor p runner).environment process.configuration).run t with
  | mk result t₁ =>
    rw [henvironment] at h
    cases result with
    | error fault => cases h
    | ok environment =>
      obtain ⟨hmap, hstate⟩ := Prod.ext_iff.mp h
      obtain ⟨l, hl, hstream⟩ := map_eq_ok_iff.mp hmap
      cases hstate
      exact ⟨environment, l, rfl, hl, hstream⟩

theorem run_streamFor {runner : String} {environment : Key.Environment} {l : List Key.Field}
    (henvironment : ((surroundingsFor p runner).environment process.configuration).run t =
      (.ok environment, t'))
    (hl : Key.fields process.registry process.configuration environment values requested = .ok l) :
    (streamFor p runner process values requested).run t = (.ok (Key.stream l), t') := by
  rw [streamFor, run_bind, henvironment]
  exact congrArg (fun result : Except Fault (List Key.Field) => (result.map Key.stream, t')) hl

theorem run_uncheckedKey {runner : String}
    (h : (streamFor p runner process values requested).run t = (.ok a, t')) :
    (process.uncheckedKey (surroundingsFor p runner) values requested).run t =
      (.ok (keyOf a), t') := by
  rw [uncheckedKey_eq, StateT.run_map, h]
  rfl

/-- The keys of two streams are the same exactly if their digests are. -/
theorem keyOf_eq_iff : keyOf a = keyOf b ↔ Digest.sha256 a = Digest.sha256 b := by
  constructor
  · intro h
    exact Key.hex_inj (String.ofList_injective h)
  · intro h
    rw [keyOf, keyOf, h]

/-- **The streams agree exactly if the daemon tells nothing.** Both folds are over the same fields
but for two, the image and the version of the runner. On this host the image folds as its reference,
and no version is folded. So the streams agree if the daemon tells no version, and no id of the
image or one that is the reference. For the converse the folded lengths, which are words of eight
bytes, have to tell the two fields apart, and they do since a reference is short. -/
theorem stream_eq_iff_tellsNothing
    (hdocker : (streamFor p Container.runnerName process values requested).run t = (.ok a, t'))
    (hlocal : (streamFor p LocalRun.runnerName process values requested).run u = (.ok b, u')) :
    a = b ↔ p.daemon.TellsNothing Daemon.callMillis process.configuration.image t := by
  obtain ⟨e, l, henvironment, hl, rfl⟩ := exists_of_streamFor hdocker
  obtain ⟨e', l', henvironment', hl', rfl⟩ := exists_of_streamFor hlocal
  rw [surroundingsFor, if_pos rfl] at henvironment
  rw [run_environment_of_ne (by decide)] at henvironment'
  cases henvironment'
  obtain ⟨rest, hfields⟩ := Key.exists_rest hl
  cases hl.symm.trans (hfields e)
  cases hl'.symm.trans (hfields hostEnvironment)
  obtain ⟨t₁, himage, -, hservice⟩ := Daemon.exists_of_environment henvironment
  -- The daemon is asked about well-formed references only, and these are short.
  have hlength := Image.length_of_validate (Daemon.imageId_eq_ok_iff.mp himage).1
  have htags : (Text.bytes "image").length + (Text.bytes "runner.version").length = 19 := by decide
  rw [Daemon.tellsNothing_iff henvironment, Key.stream_eq_iff_of_service hservice]
  · exact Iff.rfl
  · rw [Key.Field.length_bytes, Key.Field.length_bytes]
    simp only [Key.Field.text, Key.Field.optional, hostEnvironment, Option.getD_none,
      List.length_singleton]
    unfold Image.maxLength at hlength
    omega

/-- **A container run and a run on this host have one key exactly if the daemon tells nothing**, of
the image or of itself, but for a collision of digests. Either of them is then answered with what
the other one has stored. -/
theorem runners_share_iff
    (hdocker : (streamFor p Container.runnerName process values requested).run t = (.ok a, t'))
    (hlocal : (streamFor p LocalRun.runnerName process values requested).run u = (.ok b, u')) :
    (a = b ↔ p.daemon.TellsNothing Daemon.callMillis process.configuration.image t) ∧
    ∃ k l, (process.uncheckedKey (surroundingsFor p Container.runnerName) values requested).run t =
        (.ok k, t') ∧
      (process.uncheckedKey (surroundingsFor p LocalRun.runnerName) values requested).run u =
        (.ok l, u') ∧
      (k = l ↔ Digest.sha256 a = Digest.sha256 b) :=
  ⟨stream_eq_iff_tellsNothing hdocker hlocal, _, _, run_uncheckedKey hdocker,
    run_uncheckedKey hlocal, keyOf_eq_iff⟩

/-- Then what a run on this host has left in the cache answers for a run in a container. -/
theorem run_of_tellsNothing {host : Host (StateM σ)} {unique : Nat → String} {entry : Entry}
    {t'' : σ}
    (hdocker : (streamFor p Container.runnerName process values requested).run t = (.ok a, t'))
    (hlocal : (streamFor p LocalRun.runnerName process values requested).run u = (.ok b, u'))
    (htold : p.daemon.TellsNothing Daemon.callMillis process.configuration.image t)
    (hcheck : CachedProcess.check process.configuration values requested = .ok ())
    (hhost : host.surroundings = surroundingsFor p Container.runnerName)
    (hget : (host.cache.get (keyOf b)).run t' = (.ok (some entry), t'')) :
    (process.run host unique values requested).run t =
      (.ok ⟨keyOf b, true, entry.outputs⟩, t'') := by
  have hkey : (process.key host.surroundings values requested).run t = (.ok (keyOf b), t') := by
    rw [CachedProcess.key, hcheck, hhost,
      ← (stream_eq_iff_tellsNothing hdocker hlocal).mpr htold]
    exact run_uncheckedKey hdocker
  rw [CachedProcess.run, run_bind, hkey]
  dsimp only
  rw [run_bind, hget]
  rfl

/-! A buoy is read in a harbour whose daemon says the same to every question. -/

def buoy : CachedProcess where
  configuration :=
    ⟨"buoy", none, "buoy:1", "/", ["buoy"], [], [], [], none, none, none⟩
  registry := .default

def harbour (answer : String) : Platform (StateM Unit) where
  environment := fun _ => none
  readFile := fun _ => pure (.error "no such file")
  openCache := fun _ => pure (.error (.system "no such directory"))
  daemon := ⟨"docker", fun _ _ _ => pure (.ended ⟨some 0, Text.bytes answer, []⟩)⟩
  execute := fun _ tree => pure (.ended ⟨some 0, [], []⟩, tree)
  clock := pure ⟨0, 0⟩
  unique := toString

theorem exists_fields_buoy (e : Key.Environment) :
    ∃ l, Key.fields .default buoy.configuration e [] [] = .ok l := ⟨_, rfl⟩

theorem environment_local (answer : String) : ((surroundingsFor (harbour answer)
    LocalRun.runnerName).environment buoy.configuration).run () = (.ok hostEnvironment, ()) :=
  run_environment_of_ne (by decide) ..

/-- What is known where the daemon says the same id to both questions. -/
def namedEnvironment : Key.Environment :=
  ⟨some "sha256:1", some "sha256:1", some Version.current⟩

theorem environment_named : ((surroundingsFor (harbour "sha256:1") Container.runnerName).environment
    buoy.configuration).run () = (.ok namedEnvironment, ()) := by
  rw [surroundingsFor, if_pos rfl]
  have h : Id.run ((((harbour "sha256:1").daemon.surroundings Daemon.callMillis none).environment
      buoy.configuration).run ()) = (.ok namedEnvironment, ()) := by decide +kernel
  exact h

theorem environment_silent : ((surroundingsFor (harbour "") Container.runnerName).environment
    buoy.configuration).run () = (.ok hostEnvironment, ()) := by
  rw [surroundingsFor, if_pos rfl]
  have h : Id.run ((((harbour "").daemon.surroundings Daemon.callMillis none).environment
      buoy.configuration).run ()) = (.ok hostEnvironment, ()) := by decide +kernel
  exact h

/-- The daemon names an id, and the keys are made from two streams. -/
theorem runners_apart_buoy : ∃ a b,
    (streamFor (harbour "sha256:1") Container.runnerName buoy [] []).run () = (.ok a, ()) ∧
    (streamFor (harbour "sha256:1") LocalRun.runnerName buoy [] []).run () = (.ok b, ()) ∧
    ¬ (harbour "sha256:1").daemon.TellsNothing Daemon.callMillis "buoy:1" () ∧ a ≠ b := by
  obtain ⟨l, hl⟩ := exists_fields_buoy namedEnvironment
  obtain ⟨l', hl'⟩ := exists_fields_buoy hostEnvironment
  have hdocker := run_streamFor environment_named hl
  have hlocal := run_streamFor (environment_local "sha256:1") hl'
  have htells : ¬ (harbour "sha256:1").daemon.TellsNothing Daemon.callMillis "buoy:1" () := by
    rintro ⟨e, t₁, hcall, -, hanswer, -⟩
    cases hcall
    revert hanswer
    decide +kernel
  refine ⟨_, _, hdocker, hlocal, htells, fun h => ?_⟩
  exact htells ((runners_share_iff hdocker hlocal).1.mp h)

/-- The daemon is silent, and both keys are made from one stream. -/
theorem silent_harbour_shares : ∃ a,
    (streamFor (harbour "") Container.runnerName buoy [] []).run () = (.ok a, ()) ∧
    (streamFor (harbour "") LocalRun.runnerName buoy [] []).run () = (.ok a, ()) := by
  obtain ⟨l, hl⟩ := exists_fields_buoy hostEnvironment
  exact ⟨_, run_streamFor environment_silent hl, run_streamFor (environment_local "") hl⟩

end

end CommandLine

end CachedRun
