import CachedRun.Proofs.Store.EntryFiles
import CachedRun.Proofs.Store.FileTree
import CachedRun.Total
import Mathlib.Data.String.Basic

/-!
# Listings — the files of a cache by their keys

A listing goes by the names of files, and looking an entry up goes by its path. Where all files are
entry files (`OnlyEntries`) that makes no difference: the files are those of the listed keys, each
once, and in the order of their keys (`exists_keys`). So what is done with the files of a cache is
done with a list of keys.
-/

set_option autoImplicit false

namespace CachedRun

namespace DiskCache

variable {c : DiskCache} {t : FileTree} {key : String}

/-- The content of the file of a key, or nothing. -/
def document (c : DiskCache) (t : FileTree) (key : String) : Bytes :=
  (t.file? (c.entryFile key)).getD []

/-- Whatever lies below the base directory is the file of a key. -/
def OnlyEntries (c : DiskCache) (t : FileTree) : Prop :=
  ∀ f ∈ t.filesBelow c.base, ∃ key, c.entryPath key = .ok f.1

theorem isBelow_iff {base path : Path} : FileTree.isBelow base path = true ↔ base <+: path :=
  List.isPrefixOf_iff_prefix

/-- Taking the file of one key away leaves the file of another. -/
theorem node?_unset_entryFile {other : String} (hne : other ≠ key) :
    (t.unset (c.entryFile key)).node? (c.entryFile other) = t.node? (c.entryFile other) := by
  rw [FileTree.node?_unset, if_neg fun h => hne (entryFile_inj.mp h.1)]

/-- Files that are entry files are listed by their keys. -/
theorem filterMap_listedKey? {files : List (Path × Bytes)}
    (h : ∀ f ∈ files, ∃ key, c.entryPath key = .ok f.1) :
    (files.filterMap fun f => listedKey? f.1).map c.entryFile = files.map Prod.fst ∧
      ∀ key ∈ files.filterMap fun f => listedKey? f.1, isKey key = true := by
  induction files with
  | nil => exact ⟨rfl, nofun⟩
  | cons f files ih =>
    rw [List.forall_mem_cons] at h
    obtain ⟨⟨key, hkey⟩, hrest⟩ := h
    obtain ⟨hisKey, hpath⟩ := entryPath_ok_iff.mp hkey
    obtain ⟨hmap, hall⟩ := ih hrest
    have hlisted : listedKey? f.1 = some key := by
      rw [← hpath]
      exact listedKey?_entryFile hisKey
    rw [List.filterMap_cons, hlisted]
    constructor
    · rw [List.map_cons, List.map_cons, hmap, hpath]
    · rw [List.forall_mem_cons]
      exact ⟨hisKey, hall⟩

/-- A base with nothing but entry files below it is no file itself. -/
theorem files_of_onlyEntries (ht : t.WellFormed) (h : c.OnlyEntries t) :
    c.files t = .ok (t.filesBelow c.base) := by
  unfold files
  split
  · rename_i content hnode
    have hmem : (c.base, content) ∈ t.filesBelow c.base :=
      ht.mem_filesBelow_iff.mpr ⟨isBelow_iff.mpr (List.prefix_refl _), hnode⟩
    obtain ⟨key, hkey⟩ := h _ hmem
    exact absurd (entryPath_ok_iff.mp hkey).2 entryFile_ne_base
  · rfl

/-- Whatever lies below the base directory, the names that are listed are those of files there, in
ascending order. -/
theorem exists_listed (ht : t.WellFormed) (hbase : t.node? c.base = some .directory) :
    ∃ keys, c.keys t = .ok keys ∧ keys.Pairwise (· ≤ ·) ∧ ∀ key, key ∈ keys ↔
      ∃ path content, c.base <+: path ∧ t.file? path = some content ∧ listedKey? path = some key := by
  refine ⟨_, by rw [keys, files, hbase]; rfl, ?_, fun key => ?_⟩
  · have hsorted := @List.pairwise_mergeSort String (fun a b => decide (a ≤ b))
      (by simpa using fun a b c => le_trans) (by simpa using le_total)
      ((t.filesBelow c.base).filterMap fun f => listedKey? f.1)
    simpa using hsorted
  · rw [List.mem_mergeSort, List.mem_filterMap]
    simp only [Prod.exists, ht.mem_filesBelow_iff, isBelow_iff, FileTree.file?_eq_some_iff, and_assoc]

/-- Entry files are those of the keys that they are named by, and the keys are in ascending order,
each once. Two files of one key would be at one path. -/
theorem exists_keys_of_files {files : List (Path × Bytes)} (hnodup : (files.map Prod.fst).Nodup)
    (hcontent : ∀ f ∈ files, t.node? f.1 = some (.file f.2))
    (hentries : ∀ f ∈ files, ∃ key, c.entryPath key = .ok f.1) :
    ∃ keys, ((files.filterMap fun f => listedKey? f.1).mergeSort fun a b => decide (a ≤ b)) = keys ∧
      keys.Pairwise (· < ·) ∧ (∀ key ∈ keys, isKey key = true) ∧
      files.Perm (keys.map fun key => (c.entryFile key, c.document t key)) := by
  obtain ⟨hmap, hall⟩ := filterMap_listedKey? hentries
  generalize files.filterMap (fun f => listedKey? f.1) = listed at hmap hall
  have hsorted : (listed.mergeSort fun a b => decide (a ≤ b)).Pairwise
      fun a b => decide (a ≤ b) = true :=
    List.pairwise_mergeSort (by simpa using fun a b c => le_trans) (by simpa using le_total) listed
  have hperm := List.mergeSort_perm listed fun a b : String => decide (a ≤ b)
  have hdistinct : listed.Nodup := by
    refine List.Nodup.of_map c.entryFile ?_
    rwa [hmap]
  -- Before it is sorted, the list has the order of the files.
  have hfiles : files = listed.map fun key => (c.entryFile key, c.document t key) := by
    have hread : ∀ f ∈ files, f = (f.1, (t.file? f.1).getD []) := by
      rintro ⟨path, content⟩ hf
      rw [FileTree.file?_eq_some_iff.mpr (hcontent _ hf)]
      rfl
    calc files
        = files.map fun f => (f.1, (t.file? f.1).getD []) := by
          rw [List.map_congr_left fun f hf => (hread f hf).symm, List.map_id']
      _ = (files.map Prod.fst).map fun path => (path, (t.file? path).getD []) := by
          rw [List.map_map]
          rfl
      _ = listed.map fun key => (c.entryFile key, c.document t key) := by
          rw [← hmap, List.map_map]
          rfl
  refine ⟨_, rfl, ?_, fun key hkey => hall key (hperm.mem_iff.mp hkey), ?_⟩
  · refine (hsorted.and (hperm.nodup_iff.mpr hdistinct)).imp fun h => ?_
    exact lt_of_le_of_ne (by simpa using h.1) h.2
  · rw [hfiles]
    exact hperm.symm.map _

/-- **The files of a cache are those of its keys**, and keys are listed in ascending order, each
once. -/
theorem exists_keys (ht : t.WellFormed) (h : c.OnlyEntries t) :
    ∃ keys, c.keys t = .ok keys ∧ keys.Pairwise (· < ·) ∧ (∀ key ∈ keys, isKey key = true) ∧
      (t.filesBelow c.base).Perm (keys.map fun key => (c.entryFile key, c.document t key)) := by
  obtain ⟨keys, hkeys, hrest⟩ :=
    exists_keys_of_files ht.nodup_filesBelow (fun _ hf => (ht.mem_filesBelow_iff.mp hf).2) h
  exact ⟨keys, by rw [DiskCache.keys, files_of_onlyEntries ht h, Except.map, hkeys], hrest⟩

/-- The size of all files is that of the documents of their keys. -/
theorem totalSize_eq {keys : List String} {document : String → Bytes} (ht : t.WellFormed)
    (h : c.OnlyEntries t)
    (hperm : (t.filesBelow c.base).Perm (keys.map fun key => (c.entryFile key, document key))) :
    c.totalSize t = .ok (total (keys.map fun key => (document key).length)) := by
  have hsizes := total_perm (hperm.map fun f => f.2.length)
  rw [List.map_map] at hsizes
  rw [totalSize, files_of_onlyEntries ht h, Except.map, hsizes]
  rfl

/-- What is listed is there. -/
theorem mem_keys_iff {keys : List String} (ht : t.WellFormed)
    (hkeys : ∀ key ∈ keys, isKey key = true)
    (hperm : (t.filesBelow c.base).Perm
      (keys.map fun key => (c.entryFile key, c.document t key))) :
    key ∈ keys ↔ isKey key = true ∧ ∃ content, t.file? (c.entryFile key) = some content := by
  constructor
  · intro hkey
    have hmem : (c.entryFile key, c.document t key) ∈ t.filesBelow c.base :=
      hperm.mem_iff.mpr (List.mem_map_of_mem hkey)
    exact ⟨hkeys key hkey, _, FileTree.file?_eq_some_iff.mpr (ht.mem_filesBelow_iff.mp hmem).2⟩
  · rintro ⟨-, content, hcontent⟩
    have hmem : (c.entryFile key, content) ∈ t.filesBelow c.base :=
      ht.mem_filesBelow_iff.mpr ⟨isBelow_iff.mpr base_prefix_entryFile,
        FileTree.file?_eq_some_iff.mp hcontent⟩
    obtain ⟨other, hother, heq⟩ := List.mem_map.mp (hperm.mem_iff.mp hmem)
    rw [entryFile_inj.mp (congrArg Prod.fst heq)] at hother
    exact hother

end DiskCache

end CachedRun
