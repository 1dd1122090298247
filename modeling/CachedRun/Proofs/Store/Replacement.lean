import CachedRun.Proofs.Store.Queue

/-!
# Replacement — what is left of an entry when another is put under its key

Whoever puts an entry under a key wants to be rid of the one that lay there. From then on the key is
to give the new entry or nothing, until something is put under it again: the new entry may expire or
make room for others, but the old one is not to come back.

An entry that fits does that. One that is heavier than the whole cache is turned away before the old
entry has been taken out, so it replaces only where there is nothing to replace. `replaces_iff` says
that these are all the cases there are.

The proof follows one fact through the accesses: under the key there lies this entry or none
(`HoldsAtMost`). A put that fits makes it so, and no access that spares the key can undo it, since
entries never appear by themselves (`mem_of_mem_put`, `mem_of_mem_get`).
-/

set_option autoImplicit false

namespace CachedRun.MemoryCache

variable {c d : MemoryCache} {key : String} {entry : Entry}

/-- An access that puts nothing under a key. -/
def Access.Spares (key : String) : Access → Prop
  | .get _ _ => True
  | .put other _ => other ≠ key

/-- **A put replaces**: after it, at any time and whatever else is put or asked, the key gives the
entry that was put or nothing, until the next put under it. -/
def Replaces (c : MemoryCache) (key : String) (entry : Entry) : Prop :=
  ∀ (later : List Access) (answers : List (Option Entry)) (d : MemoryCache) (now : Instant)
    (found : Entry), Reaches (c.put key entry) later answers d → (∀ a ∈ later, a.Spares key) →
      (d.get now key).1 = some found → found = entry

/-- No entry but this one lies under a key. -/
def HoldsAtMost (c : MemoryCache) (key : String) (entry : Entry) : Prop :=
  ∀ stored, (key, stored) ∈ c.entries → stored.entry = entry

theorem holdsAtMost_iff :
    c.HoldsAtMost key entry ↔ ∀ old, (key, old) ∈ c.queue → old = entry := by
  have hmem : ∀ e, e ∈ c.aged ↔ e ∈ c.entries := fun e => c.aged_perm.mem_iff
  constructor
  · intro h old hold
    obtain ⟨⟨k, stored⟩, haged, heq⟩ := List.mem_map.mp hold
    obtain ⟨rfl, rfl⟩ := Prod.mk.inj heq
    exact h stored ((hmem _).mp haged)
  · intro h stored hstored
    apply h
    exact List.mem_map.mpr ⟨(key, stored), (hmem _).mpr hstored, rfl⟩

/-! ## One access -/

theorem Alike.holdsAtMost (h : Alike c d) (hc : c.HoldsAtMost key entry) :
    d.HoldsAtMost key entry := by
  intro stored hstored
  exact hc stored (h.entries.mem_iff.mp hstored)

theorem HoldsAtMost.access (h : c.HoldsAtMost key entry) {a : Access} (ha : a.Spares key) :
    (c.access a).2.HoldsAtMost key entry := by
  intro stored hstored
  cases a with
  | get now other => exact h stored (mem_of_mem_get hstored)
  | put other new =>
    rcases mem_of_mem_put hstored with hold | ⟨hsame, -⟩
    · exact h stored hold
    · exact absurd hsame.symm ha

/-- An entry that fits leaves nothing else under its key. -/
theorem holdsAtMost_put (hlight : entry.weight ≤ c.maxWeight) :
    (c.put key entry).HoldsAtMost key entry := by
  intro stored hstored
  rw [put_of_light hlight] at hstored
  rcases List.mem_cons.mp hstored with hnew | hold
  · rw [(Prod.mk.inj hnew).2]
  · exact absurd (List.mem_map_of_mem hold) not_mem_cleared

/-! ## Any accesses -/

theorem Reaches.holdsAtMost {later : List Access} {answers : List (Option Entry)}
    (h : Reaches c later answers d) (hspared : ∀ a ∈ later, a.Spares key)
    (hc : c.HoldsAtMost key entry) : d.HoldsAtMost key entry := by
  induction h with
  | done halike => exact halike.holdsAtMost hc
  | access a halike rest ih =>
    rw [List.forall_mem_cons] at hspared
    apply ih hspared.2
    exact (halike.holdsAtMost hc).access hspared.1

theorem HoldsAtMost.replaces (h : (c.put key entry).HoldsAtMost key entry) :
    c.Replaces key entry := by
  intro later answers d now found hreaches hspared hfound
  obtain ⟨stored, hmem, rfl⟩ := mem_of_get hfound
  exact hreaches.holdsAtMost hspared h stored hmem

/-- **When a put replaces.** It does if the new entry fits, and else only if there was nothing to
replace. What does not fit changes nothing, and so the old entry is found by whoever asks for it at
the moment it was made, when it has not expired. -/
theorem replaces_iff {maxWeight lifetime : Nat} {accesses : List Access}
    {answers : List (Option Entry)} {c : MemoryCache}
    (h : Reaches (empty maxWeight lifetime) accesses answers c) (key : String) (entry : Entry) :
    c.Replaces key entry ↔
      entry.weight ≤ maxWeight ∨ ∀ old, (key, old) ∈ c.queue → old = entry := by
  obtain ⟨haccounted, hmax, -, -⟩ := h.accounted (accounted_empty maxWeight lifetime)
  have hmax : c.maxWeight = maxWeight := hmax
  rw [← hmax, ← holdsAtMost_iff]
  rcases Nat.lt_or_ge c.maxWeight entry.weight with hheavy | hlight
  · have hsame : c.put key entry = c := put_of_heavy hheavy
    constructor
    · -- What lies there can be asked for at once, at the time it was made.
      intro hreplaces
      right
      intro stored hstored
      have hhit : c.get stored.entry.createdAt key = (some stored.entry, c) := by
        have hfind := haccounted.find?_eq_some_iff.mpr hstored
        simp [get, hfind, Entry.isExpired_createdAt]
      apply hreplaces [] [] c stored.entry.createdAt
      · rw [hsame]
        exact .done .refl
      · exact List.forall_mem_nil _
      · rw [hhit]
    · intro hor
      rcases hor with hlight | hholds
      · omega
      · apply HoldsAtMost.replaces
        rwa [hsame]
  · constructor
    · intro _
      exact .inl hlight
    · intro _
      exact (holdsAtMost_put hlight).replaces

/-! ### A bowl and a boulder -/

/-- An entry of weight 24. -/
def boulder : Entry := ⟨"boulder", ⟨5, 0⟩, [("stone", .string "grey and very heavy")]⟩

theorem replaces_iff_bowl :
    Reaches (empty 20 60) pebbles [none, none, none, none, none, some pebble, none] bowl ∧
    (bowl.Replaces "c" boulder ↔
      boulder.weight ≤ 20 ∨ ∀ old, ("c", old) ∈ bowl.queue → old = boulder) :=
  ⟨reaches_bowl, replaces_iff reaches_bowl "c" boulder⟩

/-- **A boulder does not replace a pebble.** It is put without any fault, and the key gives the
pebble on. -/
theorem pebble_survives_boulder :
    Reaches (empty 20 60) [.put "c" pebble, .put "c" boulder, .get ⟨10, 0⟩ "c"]
        [none, none, some pebble] ((empty 20 60).put "c" pebble) ∧
      ¬ ((empty 20 60).put "c" pebble).Replaces "c" boulder := by
  constructor
  · refine .access (b := empty 20 60) _ .refl ?_
    refine .access (b := (empty 20 60).put "c" pebble) _ .refl ?_
    refine .access (b := (empty 20 60).put "c" pebble) _ .refl ?_
    exact .done .refl
  · intro hreplaces
    have hsame : pebble = boulder := by
      apply hreplaces [] [] ((empty 20 60).put "c" pebble) ⟨10, 0⟩ pebble
      · exact .done .refl
      · exact List.forall_mem_nil _
      · rfl
    have hprocess : "pebble" = "boulder" := congrArg Entry.process hsame
    exact absurd hprocess (by decide)

end CachedRun.MemoryCache
