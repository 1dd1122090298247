import CachedRun.Container.Daemon
import CachedRun.Proofs.Result
import CachedRun.Proofs.Text.Utf8

/-!
# The daemon — what a key learns from it

For a key the daemon is asked two things: which image a reference names, and which version the
daemon has. It has a state of its own and may answer as it likes, so there is one lemma for each
question, which says what was asked and what is made of the outcome (`imageId_eq_ok_iff`,
`run_version?`), and one for the two behind each other (`exists_of_environment`).

Without an image there is no key, but an image without an id will do, and so will a daemon without a
version. `TellsNothing` is the case in which a key learns nothing that does not stand in the
configuration already.
-/

set_option autoImplicit false

namespace CachedRun

open Result

namespace Image

theorem length_of_validate {reference : String} (h : validate reference = .ok ()) :
    (Text.bytes reference).length ≤ maxLength := by
  rw [validate] at h
  split at h
  · cases h
  · rename_i hflaw
    rw [flaw?] at hflaw
    split at hflaw
    · cases hflaw
    · split at hflaw
      · cases hflaw
      · rename_i hlength
        rw [Text.length_bytes]
        exact Nat.le_of_not_lt hlength

end Image

namespace Daemon

variable {σ : Type} {d : Daemon (StateM σ)} {millis : Nat} {reference : String} {t t' : σ}

theorem run_ask (runner operation : String) (arguments : List String) (stdin : Bytes) :
    (d.ask runner operation millis arguments stdin).run.run t =
      (((d.call arguments stdin (some millis)).run t).1.orFault runner operation millis,
        ((d.call arguments stdin (some millis)).run t).2) := rfl

/-- An image is looked up if the reference is well-formed and the daemon comes to an end. -/
theorem imageId_eq_ok_iff {id? : Option String} :
    (d.imageId millis reference).run t = (.ok id?, t') ↔
      Image.validate reference = .ok () ∧
        ∃ e, (d.call (imageArguments reference) [] (some millis)).run t = (.ended e, t') ∧
          imageIdOf reference e = .ok id? := by
  rw [imageId]
  cases Image.validate reference with
  | error fault =>
    constructor
    · rintro ⟨⟩
    · rintro ⟨⟨⟩, -⟩
  | ok _ =>
    dsimp only
    rw [run_bind, run_ask]
    -- Past the check there is one call, and only a daemon that came to an end has told anything.
    cases hcall : (d.call (imageArguments reference) [] (some millis)).run t with
    | mk outcome t₁ =>
      cases outcome with
      | notStarted _ | timedOut =>
        constructor
        · rintro ⟨⟩
        · rintro ⟨-, e, ⟨⟩, -⟩
      | ended e =>
        constructor
        · intro h
          obtain ⟨hid, rfl⟩ := Prod.ext_iff.mp h
          exact ⟨rfl, e, rfl, hid⟩
        · rintro ⟨-, e', h, hid⟩
          cases h
          exact Prod.ext hid rfl

theorem imageIdOf_eq_ok_iff {e : Ended} {id? : Option String} :
    imageIdOf reference e = .ok id? ↔
      e.isSuccess = true ∧ id? = if e.answer = "" then none else some e.answer := by
  rw [imageIdOf]
  cases e.isSuccess with
  | false =>
    constructor
    · rintro ⟨⟩
    · rintro ⟨⟨⟩, -⟩
  | true =>
    constructor
    · intro h
      exact ⟨rfl, (Except.ok.inj h).symm⟩
    · rintro ⟨-, hid⟩
      rw [hid]
      rfl

/-- The version that an outcome tells. -/
def told? : Outcome → Option String
  | .ended e => versionOf? e
  | .notStarted _ | .timedOut => none

theorem told?_eq_none_iff {outcome : Outcome} : told? outcome = none ↔
    ∀ e, outcome = .ended e → e.isSuccess = true → e.answer = "" := by
  cases outcome with
  | notStarted reason => simp [told?]
  | timedOut => simp [told?]
  | ended e => simp [told?, versionOf?]

theorem run_version? : (d.version? millis none).run t =
    (told? ((d.call versionArguments [] (some millis)).run t).1,
      ((d.call versionArguments [] (some millis)).run t).2) := by
  rw [version?, run_bind, run_ask]
  cases ((d.call versionArguments [] (some millis)).run t).1 <;> rfl

/-- An environment is an image that was looked up, and after it a version that was asked for. -/
theorem exists_of_environment {c : Configuration} {environment : Key.Environment}
    (h : ((d.surroundings millis none).environment c).run t = (.ok environment, t')) :
    ∃ t₁, (d.imageId millis c.image).run t = (.ok environment.imageId, t₁) ∧
      (d.version? millis none).run t₁ = (environment.runnerVersion, t') ∧
      environment.serviceVersion = some Version.current := by
  rw [Surroundings.environment, run_bind] at h
  cases hid : (d.imageId millis c.image).run t with
  | mk result t₁ =>
    rw [show (d.surroundings millis none).imageId c.image = d.imageId millis c.image from rfl,
      hid] at h
    cases result with
    | error fault => cases h
    | ok id? =>
      cases h
      exact ⟨t₁, rfl, rfl, rfl⟩

/-- The daemon says nothing of an image beyond its reference, and nothing of itself. -/
def TellsNothing (d : Daemon (StateM σ)) (millis : Nat) (reference : String) (t : σ) : Prop :=
  ∃ e t₁, (d.call (imageArguments reference) [] (some millis)).run t = (.ended e, t₁) ∧
    e.isSuccess = true ∧ (e.answer = "" ∨ e.answer = reference) ∧
    ∀ e', ((d.call versionArguments [] (some millis)).run t₁).1 = .ended e' →
      e'.isSuccess = true → e'.answer = ""

theorem tellsNothing_iff {c : Configuration} {environment : Key.Environment}
    (h : ((d.surroundings millis none).environment c).run t = (.ok environment, t')) :
    d.TellsNothing millis c.image t ↔
      environment.imageId.getD c.image = c.image ∧ environment.runnerVersion = none := by
  obtain ⟨t₁, himage, hversion, -⟩ := exists_of_environment h
  obtain ⟨-, e, hcall, hid⟩ := imageId_eq_ok_iff.mp himage
  obtain ⟨hsuccess, hid⟩ := imageIdOf_eq_ok_iff.mp hid
  have hversion : told? ((d.call versionArguments [] (some millis)).run t₁).1 =
      environment.runnerVersion := (Prod.ext_iff.mp (run_version?.symm.trans hversion)).1
  -- An empty answer leaves the reference, and any other one is the id.
  have hanswer : environment.imageId.getD c.image = c.image ↔
      e.answer = "" ∨ e.answer = c.image := by
    by_cases hempty : e.answer = ""
    · rw [hid, if_pos hempty]
      exact iff_of_true rfl (.inl hempty)
    · rw [hid, if_neg hempty, or_iff_right hempty]
      exact Iff.rfl
  rw [hanswer, ← hversion, told?_eq_none_iff]
  constructor
  · rintro ⟨e', t₂, hcall', -, hanswer', hnone⟩
    cases hcall.symm.trans hcall'
    exact ⟨hanswer', hnone⟩
  · rintro ⟨hanswer', hnone⟩
    exact ⟨e, t₁, hcall, hsuccess, hanswer', hnone⟩

end Daemon

end CachedRun
