import CachedRun.Proofs.Store.Listing

/-!
# Documents — a cache on disk is a table

A cache on disk writes temporary files, makes directories, renames and removes, and what comes of it
is a table of documents by key. `session_mirrors` says so: **whatever was done with a cache that
started on an empty directory, its files are the documents of its last successful puts**, and so are
the answers that it gives about them.

The table is kept beside the cache by `Operation.onTable`, which knows nothing of files. The
invariant `Session.Sound` ties the two: at the place of a key lies its document or nothing, and below
the base directory there is nothing else but directories for the files of keys. It is what makes the
three steps of a put go through, since no step finds a file where it needs a directory or the other
way round (`put_of_room`).
-/

set_option autoImplicit false

namespace CachedRun.DiskCache

open Result

variable {c : DiskCache} {t t' : FileTree} {key other unique : String} {entry : Entry}
  {path : Path}

/-! ## One operation on the files

A put may find a directory where it wants to write a file, or a file where it wants to make a
directory. In a cache that was empty once nobody has made such things, and that is part of the
invariant. -/

/-- **A put has its three steps** if no directory stands where it writes a file, and no file where it
makes a directory. Nothing is left of the temporary file. -/
theorem put_of_room (ht : t.WellFormed) (hbase : t.node? c.base = some .directory)
    (hkey : isKey key = true) (hshard : ∀ content, t.node? (c.shard key) ≠ some (.file content))
    (htemporary : t.node? (c.temporaryPath key unique) ≠ some .directory)
    (hentry : t.node? (c.entryFile key) ≠ some .directory) :
    ∃ t', c.put t unique key entry = (.ok (), t') ∧ t'.WellFormed ∧ ∀ path, t'.node? path =
      if path = c.entryFile key then some (.file entry.document)
      else if path = c.temporaryPath key unique then none
      else if path = c.shard key then some .directory
      else t.node? path := by
  have hne : c.temporaryPath key unique ≠ c.entryFile key := temporaryPath_ne_entryFile hkey hkey
  -- The tree after each of the three steps, told path by path.
  obtain ⟨t₁, hmade, hwell₁, hnode₁⟩ : ∃ t₁, t.createDirectories (c.shard key) = .ok t₁ ∧
      t₁.WellFormed ∧ ∀ path, t₁.node? path =
        if path = c.shard key then some .directory else t.node? path :=
    ht.createDirectories_child hbase hshard
  obtain ⟨t₂, hwritten, hwell₂, hnode₂⟩ := hwell₁.write (c.temporaryPath key unique)
    entry.document
    (by rwa [hnode₁, if_neg temporaryPath_ne_shard])
    (by rw [hnode₁, dropLast_temporaryPath, if_pos rfl])
  obtain ⟨t₃, hrenamed, hwell₃, hnode₃⟩ := hwell₂.rename (c.entryFile key)
    (by rw [hnode₂, if_pos rfl]) hne
    (by rwa [hnode₂, if_neg hne.symm, hnode₁, if_neg entryFile_ne_shard])
    (by rw [hnode₂, dropLast_entryFile, if_neg temporaryPath_ne_shard.symm, hnode₁, if_pos rfl])
  refine ⟨t₃, ?_, hwell₃, fun path => ?_⟩
  · rw [entryFile] at hrenamed
    rw [put, entryPath_of_isKey hkey]
    simp only [Putting.run, Putting.step, hmade, hwritten, hrenamed, Except.mapError]
  · rw [hnode₃, hnode₂, hnode₁]
    -- Read from the last step back to the first. What the second has written is gone after the
    -- third.
    by_cases hpath : path = c.temporaryPath key unique
    · simp [hpath]
    · simp [hpath]

theorem remove_of_room (ht : t.WellFormed) (hkey : isKey key = true)
    (hentry : t.node? (c.entryFile key) ≠ some .directory) :
    ∃ t', c.remove t key = .ok t' ∧ t'.WellFormed ∧ ∀ path, t'.node? path =
      if path = c.entryFile key then none else t.node? path := by
  simp only [remove, bind_eq_ok_iff, entryPath_of_isKey hkey, Except.ok.injEq, exists_eq_left']
  cases hnode : t.node? (c.entryFile key) with
  | none =>
    refine ⟨t, by simp [FileTree.occupied, hnode, pure, Except.pure], ht, fun path => ?_⟩
    split
    · rename_i h
      rw [h, hnode]
    · rfl
  | some node =>
    cases node with
    | directory => exact absurd hnode hentry
    | file content =>
      obtain ⟨t', hremoved, hwell, hnode'⟩ := ht.removeFile hnode
      exact ⟨t', by simp [FileTree.occupied, hnode, writeFault, hremoved, Except.mapError], hwell,
        hnode'⟩

/-! ### Other files

What is done for one key never touches the file of another. This needs no invariant: it holds of
whatever lies below the base directory, and of each step that is taken or refused. -/

/-- The files after a step. -/
def Putting.treeAfter : Except (FileTree.Flaw × FileTree) FileTree → FileTree
  | .ok t => t
  | .error (_, t) => t

theorem Putting.file?_step {document : Bytes} {step : Putting} (hentry : path ≠ c.entryFile key)
    (htemporary : path ≠ c.temporaryPath key unique) :
    (treeAfter (step.step c key unique document t)).file? path = t.file? path := by
  have hset {t : FileTree} {p : Path} (hroot : p ≠ []) (hp : path ≠ p) (node : Node) :
      (t.set p node).file? path = t.file? path :=
    FileTree.file?_congr (by rw [FileTree.node?_set hroot, if_neg hp])
  have hunset : (t.unset (c.temporaryPath key unique)).file? path = t.file? path :=
    FileTree.file?_congr (by rw [FileTree.node?_unset, if_neg fun h => htemporary h.1])
  -- Each step sets or unsets a path of its own, and none of these is the path that is read.
  cases step with
  | makeShard =>
    rw [Putting.step]
    cases hmade : t.createDirectories (c.shard key) with
    | error flaw => rfl
    | ok t' => exact FileTree.file?_createDirectories hmade
  | writeTemporary =>
    rw [Putting.step]
    cases hwritten : t.write (c.temporaryPath key unique) document with
    | error flaw => rfl
    | ok t' =>
      obtain ⟨hroom, rfl⟩ := FileTree.write_ok_iff.mp hwritten
      exact hset (FileTree.ne_root_of_obstacle? hroom) htemporary _
  | rename =>
    rw [Putting.step]
    cases hrenamed : t.rename (c.temporaryPath key unique) (c.shard key ++ [key ++ ".json"]) with
    | error flaw => exact hunset
    | ok t' =>
      obtain ⟨content, -, hroom, rfl⟩ := FileTree.rename_ok_iff.mp hrenamed
      exact (hset (FileTree.ne_root_of_obstacle? hroom) hentry _).trans hunset

theorem Putting.file?_run {document : Bytes} (hentry : path ≠ c.entryFile key)
    (htemporary : path ≠ c.temporaryPath key unique) :
    ∀ {steps : List Putting} {t : FileTree},
      (Putting.run c key unique document steps t).2.file? path = t.file? path
  | [], _ => rfl
  | step :: steps, t => by
    have hstep : (treeAfter (step.step c key unique document t)).file? path = t.file? path :=
      file?_step hentry htemporary
    rw [Putting.run]
    cases hresult : step.step c key unique document t with
    | ok t' =>
      rw [hresult] at hstep
      exact (file?_run hentry htemporary).trans hstep
    | error refused =>
      rw [hresult] at hstep
      exact hstep

theorem file?_put (hkey : isKey other = true) (hne : other ≠ key) :
    (c.put t unique key entry).2.file? (c.entryFile other) = t.file? (c.entryFile other) := by
  rw [put]
  split
  · rfl
  · rename_i hpath
    have hput := (entryPath_ok_iff.mp hpath).1
    exact Putting.file?_run (fun h => hne (entryFile_inj.mp h))
      (temporaryPath_ne_entryFile hput hkey).symm

theorem file?_remove (hne : other ≠ key) (h : c.remove t key = .ok t') :
    t'.file? (c.entryFile other) = t.file? (c.entryFile other) := by
  simp only [remove, bind_eq_ok_iff, entryPath_ok_iff] at h
  obtain ⟨path, ⟨-, rfl⟩, h⟩ := h
  split at h
  · cases hremoved : t.removeFile (c.entryFile key) with
    | error flaw =>
      rw [hremoved] at h
      cases h
    | ok t₁ =>
      rw [hremoved] at h
      cases h
      rw [← (FileTree.removeFile_ok_iff.mp hremoved).2]
      exact FileTree.file?_congr (node?_unset_entryFile hne)
  · cases h
    rfl

/-! ## Any number of operations

A session is a cache with its files and the table that it ought to be. An operation is done to
both. -/

/-- What is done with a cache on disk. -/
inductive Operation where
  | put (unique key : String) (entry : Entry)
  | get (now : Instant) (key : String)
  | contains (key : String)
  | remove (key : String)
  | keys
  | totalSize
  /-- Opens the directory anew. -/
  | reopen (shown : String) (lifetime maxBytes : Nat)

namespace Operation

/-- The key that an operation is about. -/
def key? : Operation → Option String
  | .put _ key _ | .get _ key | .contains key | .remove key => some key
  | .keys | .totalSize | .reopen .. => none

/-- Carries an operation out on a cache and its files. What the operation answers is left out but
for its fault. -/
def run (c : DiskCache) (t : FileTree) : Operation → Except Fault Unit × DiskCache × FileTree
  | .put unique key entry => ((c.put t unique key entry).1, c, (c.put t unique key entry).2)
  | .get now key => ((c.get t now key).map fun _ => (), c, t)
  | .contains _ => (.ok (), c, t)
  | .remove key =>
    match c.remove t key with
    | .ok t' => (.ok (), c, t')
    | .error fault => (.error fault, c, t)
  | .keys => ((c.keys t).map fun _ => (), c, t)
  | .totalSize => ((c.totalSize t).map fun _ => (), c, t)
  | .reopen shown lifetime maxBytes =>
    match create t c.base shown with
    | .ok (c', t') => (.ok (), { c' with lifetime, maxBytes }, t')
    | .error fault => (.error fault, c, t)

/-- What an operation that succeeds makes of a table of documents. -/
def onTable (table : String → Option Bytes) : Operation → String → Option Bytes
  | .put _ key entry => fun other => if other = key then some entry.document else table other
  | .remove key => fun other => if other = key then none else table other
  | _ => table

end Operation

/-- A cache with its files, and beside them the documents of the last successful puts. -/
structure Session where
  cache : DiskCache
  tree : FileTree
  table : String → Option Bytes

namespace Session

/-- The beginning: there are no documents. -/
def start (c : DiskCache) (t : FileTree) : Session := ⟨c, t, fun _ => none⟩

/-- One operation. A refused one does nothing to the table. -/
def step (s : Session) (operation : Operation) : Session :=
  match operation.run s.cache s.tree with
  | (.ok (), cache, tree) => ⟨cache, tree, operation.onTable s.table⟩
  | (.error _, cache, tree) => ⟨cache, tree, s.table⟩

/-- Operations one after the other. -/
def run (s : Session) (operations : List Operation) : Session := operations.foldl step s

theorem step_of_ok {s : Session} {operation : Operation} {cache : DiskCache} {tree : FileTree}
    (h : operation.run s.cache s.tree = (.ok (), cache, tree)) :
    s.step operation = ⟨cache, tree, operation.onTable s.table⟩ := by
  rw [step, h]

theorem step_of_error {s : Session} {operation : Operation} {fault : Fault} {cache : DiskCache}
    {tree : FileTree} (h : operation.run s.cache s.tree = (.error fault, cache, tree)) :
    s.step operation = ⟨cache, tree, s.table⟩ := by
  rw [step, h]

/-- What only asks changes nothing, whatever the answer. -/
theorem step_of_asking {s : Session} {operation : Operation} {result : Except Fault Unit}
    (h : operation.run s.cache s.tree = (result, s.cache, s.tree))
    (htable : operation.onTable s.table = s.table) : s.step operation = s := by
  cases result with
  | error fault => rw [step_of_error h]
  | ok _ => rw [step_of_ok h, htable]

/-- At the place of a key lies its document or nothing, and below the base directory there is
nothing else but the directories that these files lie in. -/
structure Sound (s : Session) : Prop where
  wellFormed : s.tree.WellFormed
  base : s.tree.node? s.cache.base = some .directory
  keys : ∀ key, s.table key ≠ none → isKey key = true
  entries : ∀ key, isKey key = true →
    s.tree.node? (s.cache.entryFile key) = (s.table key).map .file
  others : ∀ path node, s.cache.base <+: path → path ≠ s.cache.base →
    s.tree.node? path = some node →
      node = .directory ∧ path.length = s.cache.base.length + 1 ∨
        ∃ key, isKey key = true ∧ s.cache.entryFile key = path

variable {s : Session}

namespace Sound

theorem entry_not_directory (hs : s.Sound) (hkey : isKey key = true) :
    s.tree.node? (s.cache.entryFile key) ≠ some .directory := by
  rw [hs.entries key hkey]
  cases s.table key <;> nofun

theorem put (hs : s.Sound) (unique : String) (entry : Entry) (hkey : isKey key = true) :
    (s.cache.put s.tree unique key entry).1 = .ok () ∧
      Sound ⟨s.cache, (s.cache.put s.tree unique key entry).2,
        (Operation.put unique key entry).onTable s.table⟩ := by
  have hshard : ∀ content, s.tree.node? (s.cache.shard key) ≠ some (.file content) := by
    intro content hnode
    rcases hs.others _ _ base_prefix_shard shard_ne_base hnode with
      ⟨hdirectory, -⟩ | ⟨other, -, hother⟩
    · cases hdirectory
    · exact entryFile_ne_shard hother
  have hbelow : s.cache.base <+: s.cache.temporaryPath key unique :=
    base_prefix_shard.trans (List.prefix_append _ _)
  have htemporary : s.tree.node? (s.cache.temporaryPath key unique) ≠ some .directory := by
    intro hnode
    -- What is one name below the base is too high for a temporary file.
    rcases hs.others _ _ hbelow temporaryPath_ne_base hnode with
      ⟨-, hlength⟩ | ⟨other, hkey', hother⟩
    · rw [length_temporaryPath] at hlength
      omega
    · exact temporaryPath_ne_entryFile hkey hkey' hother.symm
  obtain ⟨t', hput, hwell, hnode⟩ := @put_of_room _ _ key unique entry hs.wellFormed
    hs.base hkey hshard htemporary (hs.entry_not_directory hkey)
  rw [hput]
  refine ⟨rfl, hwell, ?_, ?_, ?_, ?_⟩
  · rw [hnode, if_neg entryFile_ne_base.symm, if_neg temporaryPath_ne_base.symm,
      if_neg shard_ne_base.symm, hs.base]
  · intro other hother
    simp only [Operation.onTable] at hother
    split at hother
    · rename_i h
      rwa [h]
    · exact hs.keys other hother
  · intro other hother
    simp only [Operation.onTable]
    rw [hnode]
    by_cases h : other = key
    · rw [if_pos (by rw [h]), if_pos h]
      rfl
    · rw [if_neg (fun heq => h (entryFile_inj.mp heq)),
        if_neg (temporaryPath_ne_entryFile hkey hother).symm, if_neg entryFile_ne_shard, if_neg h,
        hs.entries other hother]
  -- Of the three places that a put may change two are allowed to be there, and the third is empty.
  · intro path node hprefix hne hpath
    simp only at hpath
    rw [hnode] at hpath
    split at hpath
    · rename_i h
      exact .inr ⟨key, hkey, h.symm⟩
    · split at hpath
      · cases hpath
      · split at hpath
        · rename_i h
          cases hpath
          exact .inl ⟨rfl, by rw [h, length_shard]⟩
        · exact hs.others path node hprefix hne hpath

theorem remove (hs : s.Sound) (hkey : isKey key = true) :
    ∃ t', s.cache.remove s.tree key = .ok t' ∧
      Sound ⟨s.cache, t', (Operation.remove key).onTable s.table⟩ := by
  obtain ⟨t', hremoved, hwell, hnode⟩ :=
    remove_of_room hs.wellFormed hkey (hs.entry_not_directory hkey)
  refine ⟨t', hremoved, hwell, ?_, ?_, ?_, ?_⟩
  -- In turn: the base, the keys of the table, their files, and nothing beside them.
  · rw [hnode, if_neg entryFile_ne_base.symm, hs.base]
  · intro other hother
    simp only [Operation.onTable] at hother
    split at hother
    · exact absurd rfl hother
    · exact hs.keys other hother
  · intro other hother
    simp only [Operation.onTable]
    rw [hnode]
    by_cases h : other = key
    · rw [if_pos (by rw [h]), if_pos h]
      rfl
    · rw [if_neg (fun heq => h (entryFile_inj.mp heq)), if_neg h, hs.entries other hother]
  · intro path node hprefix hne hpath
    simp only at hpath
    rw [hnode] at hpath
    split at hpath
    · cases hpath
    · exact hs.others path node hprefix hne hpath

/-- **One operation** keeps a session sound. What only asks changes neither the files nor the table,
and a refused key changes neither of them either. -/
theorem step (hs : s.Sound) (operation : Operation) : (s.step operation).Sound := by
  cases operation with
  | get now key | contains key | keys | totalSize =>
    rw [step_of_asking rfl rfl]
    exact hs
  | put unique key entry =>
    by_cases hkey : isKey key = true
    · obtain ⟨hresult, hsound⟩ := hs.put unique entry hkey
      rw [step_of_ok (by rw [Operation.run, hresult])]
      exact hsound
    · rw [step_of_error (by rw [Operation.run, DiskCache.put, entryPath_of_not_isKey hkey])]
      exact hs
  | remove key =>
    by_cases hkey : isKey key = true
    · obtain ⟨t', hremoved, hsound⟩ := hs.remove hkey
      rw [step_of_ok (by rw [Operation.run, hremoved])]
      exact hsound
    · have hrefused : s.cache.remove s.tree key =
          .error (.cacheRead s!"invalid cache key '{key}'") := by
        rw [DiskCache.remove, entryPath_of_not_isKey hkey]
        rfl
      rw [step_of_error (by rw [Operation.run, hrefused])]
      exact hs
  | reopen shown lifetime maxBytes =>
    have hopened := hs.wellFormed.createDirectories_self hs.base
    rw [step_of_ok (by rw [Operation.run, create, hopened])]
    exact ⟨hs.wellFormed, hs.base, hs.keys, hs.entries, hs.others⟩

/-- Any number of operations. -/
theorem run (hs : s.Sound) (operations : List Operation) : (s.run operations).Sound := by
  induction operations generalizing s with
  | nil => exact hs
  | cons operation operations ih => exact ih (hs.step operation)

end Sound

/-! ## What is seen of the table

What a user can ask: the files, whether there is an entry, the keys, the size. All of it is told by
the table. -/

/-- The files of a session and its answers are those of its table. -/
structure Mirrors (s : Session) : Prop where
  /-- The files are the documents of the table, each at the place of its key. -/
  files : ∀ path content, (path, content) ∈ s.tree.filesBelow s.cache.base ↔
    ∃ key, s.cache.entryPath key = .ok path ∧ s.table key = some content
  once : ((s.tree.filesBelow s.cache.base).map Prod.fst).Nodup
  contains : ∀ key, s.cache.contains s.tree key = (s.table key).isSome
  /-- The keys are those of the table in ascending order, and the size is that of their
  documents. -/
  listed : ∃ keys, s.cache.keys s.tree = .ok keys ∧ keys.Pairwise (· < ·) ∧
    (∀ key, key ∈ keys ↔ (s.table key).isSome = true) ∧
    s.cache.totalSize s.tree = .ok (total (keys.map fun key => ((s.table key).getD []).length))
  /-- A put of the next moment succeeds exactly under a key. -/
  accepts : ∀ unique key entry,
    (s.cache.put s.tree unique key entry).1 = .ok () ↔ isKey key = true
  /-- Whatever is done at the next moment leaves the files of other keys alone. -/
  apart : ∀ (operation : Operation) key, isKey key = true → operation.key? ≠ some key →
    (s.step operation).tree.file? (s.cache.entryFile key) =
      s.tree.file? (s.cache.entryFile key)

namespace Sound

theorem file?_entryFile (hs : s.Sound) (hkey : isKey key = true) :
    s.tree.file? (s.cache.entryFile key) = s.table key := by
  unfold FileTree.file?
  rw [hs.entries key hkey]
  cases s.table key <;> rfl

theorem mem_files_iff (hs : s.Sound) {content : Bytes} :
    (path, content) ∈ s.tree.filesBelow s.cache.base ↔
      ∃ key, s.cache.entryPath key = .ok path ∧ s.table key = some content := by
  rw [hs.wellFormed.mem_filesBelow_iff, isBelow_iff]
  constructor
  · rintro ⟨hunder, hnode⟩
    have hne : path ≠ s.cache.base := by
      rintro rfl
      rw [hs.base] at hnode
      cases hnode
    rcases hs.others path _ hunder hne hnode with ⟨hdirectory, -⟩ | ⟨key, hkey, rfl⟩
    · cases hdirectory
    · rw [← FileTree.file?_eq_some_iff, hs.file?_entryFile hkey] at hnode
      exact ⟨key, entryPath_of_isKey hkey, hnode⟩
  · rintro ⟨key, hpath, htable⟩
    obtain ⟨hkey, rfl⟩ := entryPath_ok_iff.mp hpath
    rw [← FileTree.file?_eq_some_iff, hs.file?_entryFile hkey]
    exact ⟨base_prefix_entryFile, htable⟩

theorem contains (hs : s.Sound) (key : String) :
    s.cache.contains s.tree key = (s.table key).isSome := by
  unfold DiskCache.contains
  by_cases hkey : isKey key = true
  · rw [entryPath_of_isKey hkey]
    simp only [FileTree.occupied]
    rw [hs.entries key hkey, Option.isSome_map]
  · rw [entryPath_of_not_isKey hkey]
    have hnone : s.table key = none := by
      by_contra hsome
      exact hkey (hs.keys key hsome)
    rw [hnone]
    rfl

theorem listed (hs : s.Sound) : ∃ keys, s.cache.keys s.tree = .ok keys ∧
    keys.Pairwise (· < ·) ∧ (∀ key, key ∈ keys ↔ (s.table key).isSome = true) ∧
    s.cache.totalSize s.tree =
      .ok (total (keys.map fun key => ((s.table key).getD []).length)) := by
  have honly : s.cache.OnlyEntries s.tree := by
    rintro ⟨path, content⟩ hf
    obtain ⟨key, hpath, -⟩ := hs.mem_files_iff.mp hf
    exact ⟨key, hpath⟩
  obtain ⟨keys, hkeys, hsorted, hall, hperm⟩ := exists_keys hs.wellFormed honly
  -- A key is listed if it has a file, which it has if the table has a document for it.
  refine ⟨keys, hkeys, hsorted, fun key => ?_, ?_⟩
  · rw [mem_keys_iff hs.wellFormed hall hperm]
    constructor
    · rintro ⟨hkey, content, hcontent⟩
      rw [hs.file?_entryFile hkey] at hcontent
      rw [hcontent]
      rfl
    · intro hsome
      have hkey := hs.keys key (Option.isSome_iff_ne_none.mp hsome)
      rw [hs.file?_entryFile hkey]
      exact ⟨hkey, Option.isSome_iff_exists.mp hsome⟩
  · rw [totalSize_eq hs.wellFormed honly hperm]
    congr 2
    refine List.map_congr_left fun key hkey => ?_
    rw [document, hs.file?_entryFile (hall key hkey)]

theorem apart (hs : s.Sound) (operation : Operation) (hkey : isKey key = true)
    (hother : operation.key? ≠ some key) :
    (s.step operation).tree.file? (s.cache.entryFile key) =
      s.tree.file? (s.cache.entryFile key) := by
  -- Only a put or a removal touches files, each of them those of its own key.
  cases operation with
  | get now key | contains key | keys | totalSize =>
    rw [step_of_asking rfl rfl]
  | put unique put entry =>
    have hput : (s.cache.put s.tree unique put entry).2.file? (s.cache.entryFile key) =
        s.tree.file? (s.cache.entryFile key) :=
      file?_put hkey fun h => hother (congrArg some h.symm)
    cases hresult : (s.cache.put s.tree unique put entry).1 with
    | error fault =>
      rw [step_of_error (by rw [Operation.run, hresult])]
      exact hput
    | ok _ =>
      rw [step_of_ok (by rw [Operation.run, hresult])]
      exact hput
  | remove removed =>
    cases hresult : s.cache.remove s.tree removed with
    | error fault => rw [step_of_error (by rw [Operation.run, hresult])]
    | ok t' =>
      rw [step_of_ok (by rw [Operation.run, hresult])]
      exact file?_remove (fun h => hother (congrArg some h.symm)) hresult
  | reopen shown lifetime maxBytes =>
    rw [step_of_ok (by rw [Operation.run, create, hs.wellFormed.createDirectories_self hs.base])]

end Sound

end Session

/-- A directory that has nothing in it. -/
def IsEmptyDirectory (t : FileTree) (base : Path) : Prop :=
  t.node? base = some .directory ∧ ∀ path, base <+: path → path ≠ base → t.node? path = none

theorem Session.sound_start (ht : t.WellFormed) (hempty : IsEmptyDirectory t c.base) :
    (Session.start c t).Sound where
  wellFormed := ht
  base := hempty.1
  keys := fun _ h => absurd rfl h
  entries := fun _ _ => hempty.2 _ base_prefix_entryFile entryFile_ne_base
  others := by
    intro path node hprefix hne hnode
    rw [Session.start, hempty.2 path hprefix hne] at hnode
    cases hnode

/-- **A cache on disk is a table of documents**, whatever was done with it since its directory was
empty. What every operation keeps is `Session.Sound`, which also speaks of the directories, since a
put needs room for one. -/
theorem session_mirrors (c : DiskCache) (ht : t.WellFormed) (hempty : IsEmptyDirectory t c.base)
    (operations : List Operation) : ((Session.start c t).run operations).Mirrors := by
  have hs := (Session.sound_start ht hempty).run operations
  refine ⟨fun path content => hs.mem_files_iff, hs.wellFormed.nodup_filesBelow, hs.contains,
    hs.listed, fun unique key entry => ⟨fun hput => ?_, fun hkey => (hs.put unique entry hkey).1⟩,
    fun operation key => hs.apart operation⟩
  by_contra hkey
  rw [put, entryPath_of_not_isKey hkey] at hput
  cases hput

/-! ### Two keys in one directory -/

def attic : DiskCache := ⟨["attic"], 3600, 1000⟩

def emptyAttic : FileTree := ⟨[(["attic"], .directory)]⟩

def lowKey : String := String.ofList (List.replicate 64 '0')

def highKey : String := String.ofList ('0' :: '0' :: List.replicate 62 'f')

/-- An entry whose only output is a number. -/
def numberEntry (n : Int) : Entry := ⟨"count", ⟨1767225600, 0⟩, [("n", .int n)]⟩

def atticOperations : List Operation :=
  [.put "1" highKey (numberEntry 1), .put "2" lowKey (numberEntry 2),
    .put "3" "../etc" (numberEntry 3), .put "2" highKey (numberEntry 4), .remove lowKey,
    .remove "0", .reopen "attic" 60 1000, .get ⟨1767225601, 0⟩ highKey]

theorem wellFormed_emptyAttic : emptyAttic.WellFormed where
  distinct := by decide
  rootless := by decide
  parents := by
    intro n hn
    cases List.mem_singleton.mp hn
    rfl

theorem isEmptyDirectory_attic : IsEmptyDirectory emptyAttic attic.base := by
  refine ⟨rfl, fun path hprefix hne => ?_⟩
  have hroot : path ≠ [] := by
    rintro rfl
    exact absurd (List.prefix_nil.mp hprefix) (by decide)
  rw [FileTree.node?_of_ne_root hroot, emptyAttic, List.find?_singleton, if_neg]
  · rfl
  · simpa [attic] using Ne.symm hne

/-- Of two keys in one directory the second is removed, and the first has its second document. -/
theorem session_mirrors_attic :
    emptyAttic.WellFormed ∧ IsEmptyDirectory emptyAttic attic.base ∧
    ((Session.start attic emptyAttic).run atticOperations).Mirrors ∧
    ((Session.start attic emptyAttic).run atticOperations).table highKey =
      some (numberEntry 4).document ∧
    ((Session.start attic emptyAttic).run atticOperations).table lowKey = none := by
  refine ⟨wellFormed_emptyAttic, isEmptyDirectory_attic,
    session_mirrors attic wellFormed_emptyAttic isEmptyDirectory_attic atticOperations, ?_, ?_⟩
  · decide +kernel
  · decide +kernel

end CachedRun.DiskCache
