import CachedRun.Proofs.Store.Lifetime

/-!
# The cache in memory — where entries come from

A cache drops entries for many reasons: they expire, they make room, another takes their place. What
a user of the cache has to know is only that none appears by itself. Every entry after an operation
was there before it or is the one that was put, under the key that it was put under; and what `get`
gives back was stored under the key that it was asked for.
-/

set_option autoImplicit false

namespace CachedRun.MemoryCache

variable {c : MemoryCache} {key : String} {e : String × Stored}

theorem mem_of_find? {stored : Stored} (h : c.find? key = some stored) :
    (key, stored) ∈ c.entries := by
  obtain ⟨⟨k, s⟩, hfind, rfl⟩ := Option.map_eq_some_iff.mp h
  have hkey : k = key := by simpa using List.find?_some hfind
  rw [← hkey]
  exact List.mem_of_find?_eq_some hfind

theorem mem_of_mem_drop (h : e ∈ (c.drop key).entries) : e ∈ c.entries := by
  unfold drop at h
  split at h
  · exact h
  · exact (List.mem_filter.mp h).1

theorem mem_of_mem_makeRoom {weight fuel : Nat} (h : e ∈ (makeRoom weight fuel c).entries) :
    e ∈ c.entries := by
  induction fuel generalizing c with
  | zero => exact h
  | succ fuel ih =>
    rw [makeRoom] at h
    split at h
    · split at h
      · exact mem_of_mem_drop (ih h)
      · exact h
    · exact h

/-- What is read was stored under the key. -/
theorem mem_of_get {now : Instant} {entry : Entry} (h : (c.get now key).1 = some entry) :
    ∃ stored, (key, stored) ∈ c.entries ∧ stored.entry = entry := by
  unfold get at h
  cases hfind : c.find? key with
  | none =>
    rw [hfind] at h
    cases h
  | some stored =>
    simp only [hfind] at h
    split at h
    · cases h
    · exact ⟨stored, mem_of_find? hfind, Option.some.inj h⟩

theorem mem_of_mem_get {now : Instant} (h : e ∈ (c.get now key).2.entries) : e ∈ c.entries := by
  unfold get at h
  split at h
  · exact h
  · split at h
    · exact mem_of_mem_drop h
    · exact h

/-- What is stored was there or was put. -/
theorem mem_of_mem_put {entry : Entry} (h : e ∈ (c.put key entry).entries) :
    e ∈ c.entries ∨ e.1 = key ∧ e.2.entry = entry := by
  unfold put at h
  simp only at h
  split at h
  · exact .inl h
  · rcases List.mem_cons.mp h with rfl | h
    · exact .inr ⟨rfl, rfl⟩
    · exact .inl (mem_of_mem_drop (mem_of_mem_makeRoom h))

/-! ## What asking does

Asking drops what has expired. Nobody notices, since what has expired stays expired. -/

theorem lifetime_drop : (c.drop key).lifetime = c.lifetime := by
  unfold drop
  split <;> rfl

theorem get_snd {now : Instant} : (c.get now key).2 = c ∨
    ∃ stored, c.find? key = some stored ∧ stored.entry.isExpired c.lifetime now = true ∧
      (c.get now key).2 = c.drop key := by
  unfold get
  cases hfind : c.find? key with
  | none => exact .inl rfl
  | some stored => by_cases h : stored.entry.isExpired c.lifetime now <;> simp [h]

end CachedRun.MemoryCache
