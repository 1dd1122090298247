import CachedRun.Store.Disk
import CachedRun.Key
import CachedRun.Proofs.Result
import CachedRun.Proofs.Text.Blank
import Mathlib.Algebra.BigOperators.Group.List.Basic
import Mathlib.Algebra.GroupWithZero.Nat
import Mathlib.Data.String.Basic

/-!
# Entry files — the names of a cache on disk

The file of a key is found by its path, and its key is found again by its name. The two agree:
`listedKey?` gives back the key that `entryFile` was made from. Files of different keys lie at
different places, and the temporary file of a key is the file of none.

A key is sixty-four characters of one byte each, so two names that begin with keys are cut at one
place. `isKey_fingerprint` says that what is made of a request is a key.
-/

set_option autoImplicit false

namespace CachedRun.DiskCache

open Result

variable {c : DiskCache} {key other unique : String} {path : Path}

/-! ## Keys -/

/-- The characters of keys have one byte. -/
theorem utf8Size_of_isKeyChar {a : Char} (h : isKeyChar a = true) : a.utf8Size = 1 := by
  rw [Char.utf8Size_eq_one_iff]
  simp [isKeyChar, Char.isDigit, Char.le_def] at h
  rcases h with h | h <;> grind

theorem utf8ByteSize_ofList (l : List Char) :
    (String.ofList l).utf8ByteSize = (l.map Char.utf8Size).sum := by
  induction l with
  | nil => rfl
  | cons a l ih =>
    rw [String.ofList_cons, String.utf8ByteSize_append, String.utf8ByteSize_singleton, ih,
      List.map_cons, List.sum_cons]

theorem utf8ByteSize_of_all_isKeyChar {l : List Char} (h : l.all isKeyChar = true) :
    (String.ofList l).utf8ByteSize = l.length := by
  rw [utf8ByteSize_ofList, List.sum_eq_card_nsmul _ 1]
  · simp
  · intro n hn
    obtain ⟨a, ha, rfl⟩ := List.mem_map.mp hn
    exact utf8Size_of_isKeyChar (List.all_eq_true.mp h a ha)

theorem isKey_iff : isKey key = true ↔ key.toList.length = keyLength ∧
    key.toList.all isKeyChar = true := by
  rw [isKey, Bool.and_eq_true, decide_eq_true_eq]
  refine and_congr_left fun hall => ?_
  have hsize := utf8ByteSize_of_all_isKeyChar hall
  rw [String.ofList_toList] at hsize
  rw [hsize]

theorem length_of_isKey (h : isKey key = true) : key.toList.length = keyLength :=
  (isKey_iff.mp h).1

theorem isKeyChar_digitChar : ∀ n : Fin 16, isKeyChar (Nat.digitChar n) = true := by decide

theorem length_hex (b : Bytes) : (Digest.hex b).length = 2 * b.length := by
  induction b with
  | nil => rfl
  | cons byte b ih =>
    rw [Digest.hex, List.flatMap_cons, List.length_append, ← Digest.hex, ih, List.length_cons]
    simp only [List.length_cons, List.length_nil]
    omega

/-- **A fingerprint is a key.** -/
theorem isKey_fingerprint (fields : List Key.Field) : isKey (Key.fingerprint fields) = true := by
  rw [isKey_iff, Key.fingerprint, String.toList_ofList, List.all_eq_true]
  constructor
  · rw [length_hex]
    rfl
  · intro a ha
    obtain ⟨byte, -, ha⟩ := List.mem_flatMap.mp ha
    have hbyte := byte.toNat_lt
    simp only [List.mem_cons, List.not_mem_nil, or_false] at ha
    rcases ha with rfl | rfl
    · exact isKeyChar_digitChar ⟨byte.toNat / 16, by omega⟩
    · exact isKeyChar_digitChar ⟨byte.toNat % 16, by omega⟩

/-! ## Places -/

/-- Where the file of a key lies. -/
def entryFile (c : DiskCache) (key : String) : Path := c.shard key ++ [key ++ ".json"]

theorem entryPath_ok_iff :
    c.entryPath key = .ok path ↔ isKey key = true ∧ c.entryFile key = path := by
  unfold entryPath
  split <;> rename_i h <;> simp [h, entryFile]

theorem entryPath_of_isKey (h : isKey key = true) : c.entryPath key = .ok (c.entryFile key) :=
  entryPath_ok_iff.mpr ⟨h, rfl⟩

theorem entryPath_of_not_isKey (h : isKey key ≠ true) :
    c.entryPath key = .error (.cacheRead s!"invalid cache key '{key}'") := if_neg h

theorem length_shard : (c.shard key).length = c.base.length + 1 := by
  simp [shard]

theorem length_entryFile : (c.entryFile key).length = c.base.length + 2 := by
  simp [entryFile, length_shard]

theorem length_temporaryPath : (c.temporaryPath key unique).length = c.base.length + 2 := by
  simp [temporaryPath, length_shard]

theorem base_prefix_shard : c.base <+: c.shard key := List.prefix_append _ _

theorem base_prefix_entryFile : c.base <+: c.entryFile key :=
  base_prefix_shard.trans (List.prefix_append _ _)

theorem dropLast_entryFile : (c.entryFile key).dropLast = c.shard key := by
  rw [entryFile, List.dropLast_concat]

theorem dropLast_temporaryPath : (c.temporaryPath key unique).dropLast = c.shard key := by
  rw [temporaryPath, List.dropLast_concat]

/-- Files of different keys lie at different places. -/
theorem entryFile_inj : c.entryFile key = c.entryFile other ↔ key = other := by
  refine ⟨fun h => ?_, fun h => h ▸ rfl⟩
  have hname := (List.append_inj' h rfl).2
  rw [List.singleton_inj, ← String.toList_inj, String.toList_append, String.toList_append,
    List.append_left_inj, String.toList_inj] at hname
  exact hname

/-- The temporary file of one key is not the file of another. -/
theorem temporaryPath_ne_entryFile (hkey : isKey key = true) (hother : isKey other = true) :
    c.temporaryPath key unique ≠ c.entryFile other := by
  intro h
  have hname := (List.append_inj' h rfl).2
  rw [List.singleton_inj, ← String.toList_inj, String.toList_append, String.toList_append,
    String.toList_append, List.append_assoc] at hname
  have hlength : key.toList.length = other.toList.length := by
    rw [length_of_isKey hkey, length_of_isKey hother]
  have hending := (List.append_inj hname hlength).2
  exact absurd (congrArg (·[1]?) hending) (by simp)

/-- Neither is a directory for the files of keys. -/
theorem entryFile_ne_shard : c.entryFile key ≠ c.shard other := by
  refine ne_of_apply_ne List.length ?_
  rw [length_entryFile, length_shard]
  omega

theorem temporaryPath_ne_shard : c.temporaryPath key unique ≠ c.shard other := by
  refine ne_of_apply_ne List.length ?_
  rw [length_temporaryPath, length_shard]
  omega

/-- All of these places lie deeper than the base directory. -/
theorem shard_ne_base : c.shard key ≠ c.base := by
  refine ne_of_apply_ne List.length ?_
  rw [length_shard]
  omega

theorem entryFile_ne_base : c.entryFile key ≠ c.base := by
  refine ne_of_apply_ne List.length ?_
  rw [length_entryFile]
  omega

theorem temporaryPath_ne_base : c.temporaryPath key unique ≠ c.base := by
  refine ne_of_apply_ne List.length ?_
  rw [length_temporaryPath]
  omega

/-! ## Names -/

/-- The name of the file of a key shows the key. -/
theorem listedKey?_entryFile (h : isKey key = true) : listedKey? (c.entryFile key) = some key := by
  have hsize : key.utf8ByteSize = keyLength := by
    rw [isKey, Bool.and_eq_true, decide_eq_true_eq] at h
    exact h.1
  rw [listedKey?, entryFile, List.getLast?_concat, Option.bind_eq_bind, Option.bind_some,
    String.toList_append, Text.dropEnding?_append]
  simp [hsize]

/-! ## Asking -/

/-- What is got of a key is what its file holds. -/
theorem get_of_isKey {t : FileTree} {now : Instant} (hkey : isKey key = true) :
    c.get t now key = match t.node? (c.entryFile key) with
      | none => .ok none
      | some .directory => .error (.cacheRead FileTree.Flaw.isDirectory.message)
      | some (.file content) =>
        match Entry.read? content with
        | none => .error (.cacheRead "the file holds no entry")
        | some e => .ok (if e.isExpired c.lifetime now then none else some e) := by
  unfold get
  rw [entryPath_of_isKey hkey]
  cases hnode : t.node? (c.entryFile key) with
  | none => simp [bind, Except.bind, FileTree.occupied, hnode, pure, Except.pure]
  | some node =>
    cases node with
    | directory => simp [bind, Except.bind, FileTree.occupied, hnode, readEntry, FileTree.read]
    | file content =>
      cases hentry : Entry.read? content <;>
        simp [bind, Except.bind, FileTree.occupied, hnode, readEntry, FileTree.read, hentry, pure,
          Except.pure]

theorem get_of_not_isKey {t : FileTree} {now : Instant} (hkey : isKey key ≠ true) :
    c.get t now key = .error (.cacheRead s!"invalid cache key '{key}'") := by
  unfold get
  rw [entryPath_of_not_isKey hkey]
  rfl

/-- What is at the place of a key decides what is got. -/
theorem get_congr {t t' : FileTree} (h : t'.node? (c.entryFile key) = t.node? (c.entryFile key))
    (now : Instant) : c.get t' now key = c.get t now key := by
  by_cases hkey : isKey key = true
  · rw [get_of_isKey hkey, get_of_isKey hkey, h]
  · rw [get_of_not_isKey hkey, get_of_not_isKey hkey]

/-! ## Faults of storing -/

end CachedRun.DiskCache
