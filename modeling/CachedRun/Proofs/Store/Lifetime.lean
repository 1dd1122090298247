import CachedRun.Store.Disk

/-!
# Lifetimes — when it can be told that an entry has expired

An entry has expired when its lifetime has passed since it was made. The end of the lifetime is a
sum of an instant and a number of seconds, and the calendar in which a program takes that sum has an
end. There are three cases. A lifetime that is too long for the clock of a program never ends
(`Entry.longestLifetime`, three hundred million years). One that ends in the calendar ends there. One
in between has no end that could be told, and the check has no answer.

`Entry.tellsEnd` is the condition for an answer, and `Entry.isExpired` the answer where there is one.
The theorems on caches speak of the answer; `DiskCache.get?_eq` and `DiskCache.collect?_eq` say under
which condition they speak of what the program does.
-/

set_option autoImplicit false

namespace CachedRun

/-! ## Entries -/

namespace Entry

variable {e : Entry} {lifetime : Nat} {now : Instant}

theorem isSome_addSeconds?_iff {t : Instant} {seconds : Nat} :
    (t.addSeconds? seconds).isSome = true ↔ t.seconds + seconds ≤ Instant.lastSecond := by
  unfold Instant.addSeconds?
  split
  · rename_i h
    simpa using h
  · rename_i h
    simpa using h

theorem tellsEnd_iff : e.tellsEnd lifetime = true ↔
    longestLifetime < lifetime ∨ e.createdAt.seconds + lifetime ≤ Instant.lastSecond := by
  rw [tellsEnd, Bool.or_eq_true, decide_eq_true_iff, isSome_addSeconds?_iff]

/-- Whether there is an answer does not depend on the time of the check. -/
theorem isSome_isExpired?_iff :
    (e.isExpired? lifetime now).isSome = true ↔ e.tellsEnd lifetime = true := by
  unfold isExpired?
  rw [tellsEnd_iff]
  split
  case isTrue hlong => simp [hlong]
  case isFalse hshort =>
    rw [Option.isSome_map, isSome_addSeconds?_iff]
    simp [hshort]

/-- **A lifetime that has passed has an end in the calendar**, and that end is over. -/
theorem isExpired_iff : e.isExpired lifetime now = true ↔
    lifetime ≤ longestLifetime ∧ e.createdAt.seconds + lifetime ≤ Instant.lastSecond ∧
      (e.createdAt.addSeconds lifetime).before now = true := by
  unfold isExpired isExpired? Instant.addSeconds?
  split
  case isTrue hlong => simp [Nat.not_le.mpr hlong]
  case isFalse hshort =>
    split
    case isTrue hend => simp [Nat.not_lt.mp hshort, hend]
    case isFalse hend => simp [hend]

/-- No entry has expired at the time it was made. -/
theorem isExpired_createdAt (e : Entry) (lifetime : Nat) :
    e.isExpired lifetime e.createdAt = false := by
  rw [Bool.eq_false_iff]
  intro hexpired
  obtain ⟨-, -, hpassed⟩ := isExpired_iff.mp hexpired
  simp only [Instant.before, Bool.or_eq_true, Bool.and_eq_true, decide_eq_true_eq,
    beq_iff_eq] at hpassed
  by_cases hzero : lifetime = 0
  · simp [Instant.addSeconds, hzero] at hpassed
  · simp only [Instant.addSeconds] at hpassed
    omega

end Entry

/-! ## The cache on disk -/

namespace DiskCache

variable {c : DiskCache} {t : FileTree}

/-- A program that asks for an entry whose end can be told gets what `get` says. -/
theorem get?_eq {now : Instant} {key : String} (h : c.tellsEnd t key = true) :
    c.get? t now key = some (c.get t now key) :=
  if_pos h

/-- A program that collects entries whose ends can all be told does what `collect` says. -/
theorem collect?_eq {now : Instant}
    (h : ∀ keys, c.keys t = .ok keys → ∀ key ∈ keys, c.tellsEnd t key = true) :
    c.collect? t now = (some (c.collect t now).1, (c.collect t now).2) := by
  unfold collect?
  cases hkeys : c.keys t with
  | error fault => rw [collect, hkeys]
  | ok keys =>
    have hall : keys.all (c.tellsEnd t) = true := List.all_eq_true.mpr (h keys hkeys)
    simp only [hall, if_true]

end DiskCache

end CachedRun
