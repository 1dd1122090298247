import Mathlib.Data.List.Forall2

/-!
# Results — reading back a computation that may fail

Most functions of the library are `do` blocks in `Except Fault`. The lemmas here take a successful
result apart at its binds and maps, and take a `mapM` over a list apart at its members. The last
section does the same for computations that have a state beside.
-/

set_option autoImplicit false

namespace CachedRun.Result

variable {ε α β γ : Type}

theorem bind_eq_ok_iff {x : Except ε α} {f : α → Except ε β} {b : β} :
    (x >>= f) = .ok b ↔ ∃ a, x = .ok a ∧ f a = .ok b := by
  cases x with
  | error e => simp [bind, Except.bind]
  | ok a => simp [bind, Except.bind]

theorem map_eq_ok_iff {x : Except ε α} {f : α → β} {b : β} :
    x.map f = .ok b ↔ ∃ a, x = .ok a ∧ f a = b := by
  cases x with
  | error e => simp [Except.map]
  | ok a => simp [Except.map]

theorem mapError_eq_ok_iff {ε' : Type} {x : Except ε α} {f : ε → ε'} {a : α} :
    x.mapError f = .ok a ↔ x = .ok a := by
  cases x with
  | error e => simp [Except.mapError]
  | ok b => simp [Except.mapError]

theorem bind_eq_error_iff {x : Except ε α} {f : α → Except ε β} {e : ε} :
    (x >>= f) = .error e ↔ x = .error e ∨ ∃ a, x = .ok a ∧ f a = .error e := by
  cases x with
  | error e' => simp [bind, Except.bind]
  | ok a => simp [bind, Except.bind]

theorem map_eq_error_iff {x : Except ε α} {f : α → β} {e : ε} :
    x.map f = .error e ↔ x = .error e := by
  cases x with
  | error e' => simp [Except.map]
  | ok a => simp [Except.map]

theorem mapError_eq_error_iff {ε' : Type} {x : Except ε α} {f : ε → ε'} {e : ε'} :
    x.mapError f = .error e ↔ ∃ e', x = .error e' ∧ f e' = e := by
  cases x with
  | error e' => simp [Except.mapError]
  | ok b => simp [Except.mapError]

theorem toOption_eq_some_iff {x : Except ε α} {a : α} : x.toOption = some a ↔ x = .ok a := by
  cases x with
  | error e => simp [Except.toOption]
  | ok b => simp [Except.toOption]

/-! ## Lists -/

theorem mapM_ok_iff {f : α → Except ε β} :
    ∀ {l : List α} {m : List β}, l.mapM f = .ok m ↔ List.Forall₂ (fun a b => f a = .ok b) l m := by
  intro l
  induction l with
  | nil => intro m; simp [pure, Except.pure, eq_comm]
  | cons a l ih =>
    intro m
    simp only [List.mapM_cons, bind_eq_ok_iff, ih, List.forall₂_cons_left_iff, pure, Except.pure,
      Except.ok.injEq]
    constructor
    · rintro ⟨b, hb, m', hm, rfl⟩
      exact ⟨b, m', hb, hm, rfl⟩
    · rintro ⟨b, m', hb, hm, rfl⟩
      exact ⟨b, hb, m', hm, rfl⟩

theorem mapM_some_iff {f : α → Option β} :
    ∀ {l : List α} {m : List β},
      l.mapM f = some m ↔ List.Forall₂ (fun a b => f a = some b) l m := by
  intro l
  induction l with
  | nil => intro m; simp [eq_comm]
  | cons a l ih =>
    intro m
    simp only [List.mapM_cons, Option.bind_eq_bind, Option.bind_eq_some_iff, ih,
      List.forall₂_cons_left_iff, pure, Option.some.injEq]
    constructor
    · rintro ⟨b, hb, m', hm, rfl⟩
      exact ⟨b, m', hb, hm, rfl⟩
    · rintro ⟨b, m', hb, hm, rfl⟩
      exact ⟨b, hb, m', hm, rfl⟩

/-- Where one function succeeds exactly when another does, with an image of its result, so does the
walk over a list. -/
theorem mapM_ok_iff_image {f : α → Except ε β} {g : α → Option γ} {φ : γ → β}
    (h : ∀ a b, f a = .ok b ↔ ∃ x, g a = some x ∧ φ x = b) {l : List α} {m : List β} :
    l.mapM f = .ok m ↔ ∃ xs, l.mapM g = some xs ∧ xs.map φ = m := by
  rw [mapM_ok_iff]
  constructor
  · intro hl
    induction hl with
    | nil => exact ⟨[], rfl, rfl⟩
    | @cons a b l m hab _ ih =>
      obtain ⟨x, hx, rfl⟩ := (h a b).mp hab
      obtain ⟨xs, hxs, rfl⟩ := ih
      exact ⟨x :: xs, by simp [hx, hxs], rfl⟩
  · rintro ⟨xs, hxs, rfl⟩
    rw [mapM_some_iff] at hxs
    induction hxs with
    | nil => exact .nil
    | @cons a x l xs hax _ ih => exact .cons ((h a (φ x)).mpr ⟨x, hax, rfl⟩) ih

/-- What a walk over a list gives comes from its members. -/
theorem mem_of_mapM_ok {f : α → Except ε β} {l : List α} {m : List β} (h : l.mapM f = .ok m)
    {b : β} (hb : b ∈ m) : ∃ a ∈ l, f a = .ok b := by
  rw [mapM_ok_iff] at h
  induction h with
  | nil => cases hb
  | @cons a b' l m hab _ ih =>
    rcases List.mem_cons.mp hb with rfl | hb
    · exact ⟨a, List.mem_cons_self .., hab⟩
    · obtain ⟨a', ha', hfound⟩ := ih hb
      exact ⟨a', List.mem_cons_of_mem _ ha', hfound⟩

/-- A member goes where its own result is. -/
theorem mem_iff_of_mapM_ok {f : α → Except ε β} {l : List α} {m : List β} (h : l.mapM f = .ok m)
    {b : β} : b ∈ m ↔ ∃ a ∈ l, f a = .ok b := by
  refine ⟨mem_of_mapM_ok h, ?_⟩
  rw [mapM_ok_iff] at h
  induction h with
  | nil => exact fun ⟨a, ha, _⟩ => nomatch ha
  | @cons a b' l m hab _ ih =>
    rintro ⟨a', ha', hb⟩
    rcases List.mem_cons.mp ha' with rfl | ha'
    · rw [hab] at hb
      cases hb
      exact List.mem_cons_self ..
    · exact List.mem_cons_of_mem _ (ih ⟨a', ha', hb⟩)

/-- A walk over a list keeps places. -/
theorem getElem?_of_mapM_ok {f : α → Except ε β} {l : List α} {m : List β} (h : l.mapM f = .ok m)
    {i : Nat} {b : β} (hb : m[i]? = some b) : ∃ a, l[i]? = some a ∧ f a = .ok b := by
  rw [mapM_ok_iff] at h
  induction h generalizing i with
  | nil => cases hb
  | cons hab _ ih =>
    cases i with
    | zero =>
      cases hb
      exact ⟨_, rfl, hab⟩
    | succ i => exact ih hb

/-- A walk over a list fails at a member. -/
theorem mem_of_mapM_error {f : α → Except ε β} {l : List α} {e : ε} (h : l.mapM f = .error e) :
    ∃ a ∈ l, f a = .error e := by
  induction l with
  | nil => cases h
  | cons a l ih =>
    rw [List.mapM_cons, bind_eq_error_iff] at h
    rcases h with hfirst | ⟨b, -, hrest⟩
    · exact ⟨a, List.mem_cons_self .., hfirst⟩
    · rcases bind_eq_error_iff.mp hrest with hlater | ⟨_, -, hnever⟩
      · obtain ⟨a', ha', hfault⟩ := ih hlater
        exact ⟨a', List.mem_cons_of_mem _ ha', hfault⟩
      · cases hnever

/-- The fault of a walk over a list is that of the first member that has one. -/
theorem mapM_eq_error_iff {f : α → Except ε β} {g : α → Option ε} {l : List α}
    (h : ∀ a ∈ l, ∀ e, f a = .error e ↔ g a = some e) {e : ε} :
    l.mapM f = .error e ↔ l.findSome? g = some e := by
  induction l with
  | nil => simp [pure, Except.pure]
  | cons a l ih =>
    rw [List.forall_mem_cons] at h
    rw [List.mapM_cons, List.findSome?_cons]
    cases hfirst : f a with
    | error e' =>
      rw [(h.1 e').mp hfirst]
      simp [bind, Except.bind]
    | ok b =>
      have hnone : g a = none := by
        cases hg : g a with
        | none => rfl
        | some e' =>
          rw [(h.1 e').mpr hg] at hfirst
          cases hfirst
      rw [hnone, ← ih h.2]
      cases l.mapM f <;> simp [bind, Except.bind, pure, Except.pure]

/-- Two lists that go along with a third go along with each other. -/
theorem forall₂_of_common {R : α → γ → Prop} {S : β → γ → Prop} {l : List α} {m : List β}
    {xs : List γ} (h : List.Forall₂ R l xs) (h' : List.Forall₂ S m xs) :
    List.Forall₂ (fun a b => ∃ x, R a x ∧ S b x) l m := by
  induction h generalizing m with
  | nil =>
    cases h'
    exact .nil
  | cons hax _ ih =>
    obtain ⟨b, m, hbx, hrest, rfl⟩ := List.forall₂_cons_right_iff.mp h'
    exact .cons ⟨_, hax, hbx⟩ (ih hrest)

/-! ## Computations with a state -/

section State

theorem run_bind {σ α β : Type} (x : StateM σ α) (f : α → StateM σ β) (s : σ) :
    (x >>= f).run s = (f (x.run s).1).run (x.run s).2 := rfl

variable {σ : Type} {x : ExceptT ε (StateM σ) α} {f : α → ExceptT ε (StateM σ) β} {s s' : σ}

theorem run_bind_of_ok {a : α} (h : x.run.run s = (.ok a, s')) :
    (x >>= f).run.run s = (f a).run.run s' := by
  simp only [ExceptT.run_bind, StateT.run_bind, h]
  rfl

theorem run_bind_of_error {e : ε} (h : x.run.run s = (.error e, s')) :
    (x >>= f).run.run s = (.error e, s') := by
  simp only [ExceptT.run_bind, StateT.run_bind, h]
  rfl

theorem run_bind_eq_ok_iff {b : β} : (x >>= f).run.run s = (.ok b, s') ↔
    ∃ a t, x.run.run s = (.ok a, t) ∧ (f a).run.run t = (.ok b, s') := by
  constructor
  · intro h
    cases hx : x.run.run s with
    | mk result t =>
      cases result with
      | error e =>
        rw [run_bind_of_error hx] at h
        cases h
      | ok a =>
        rw [run_bind_of_ok hx] at h
        exact ⟨a, t, rfl, h⟩
  · rintro ⟨a, t, hx, hf⟩
    rw [run_bind_of_ok hx, hf]

end State

end CachedRun.Result
