import CachedRun.Proofs.Store.Collection

/-!
# Foreign files — what stops a collection

A collection takes its keys from the names of files, wherever they lie below the base directory, and
looks for the entry of each at its own place. Most foreign files are of no account to it. Some have
a name of the length of a key that is no key, and such a *stray* name stops it.

`collect_among_foreign` says what a collection does on any tree of files. **Without stray names it
goes through, and whatever is dead at the place of a key is gone.** With one it halts at the least:
what is dead and comes before that is gone, everything else is as it was, and the fault names the
stray.

The two passes are described by what they take away, `Clears` for the first. No order of the files is
assumed, and one key may be listed twice.
-/

set_option autoImplicit false

namespace CachedRun.DiskCache

variable {c : DiskCache} {t t' : FileTree} {now : Instant} {key : String} {keys : List String}
  {p : Progress}

/-- The file of a key holds no live entry. -/
def IsDead (c : DiskCache) (now : Instant) (t : FileTree) (key : String) : Prop :=
  ∃ content, t.file? (c.entryFile key) = some content ∧
    Entry.liveSince? c.lifetime now content = none

theorem isDead_congr (h : t'.node? (c.entryFile key) = t.node? (c.entryFile key)) :
    c.IsDead now t' key ↔ c.IsDead now t key := by
  rw [IsDead, IsDead, FileTree.file?_congr h]

/-! ## The first pass -/

/-- A key without a file is passed over. -/
theorem sift_of_no_file (hkey : isKey key = true) (h : p.tree.file? (c.entryFile key) = none) :
    c.sift now p key = .ok p := by
  unfold sift
  rw [entryPath_of_isKey hkey]
  simp only [bind, Except.bind]
  cases hnode : p.tree.node? (c.entryFile key) with
  | none => rfl
  | some node =>
    cases node with
    | file content =>
      rw [FileTree.file?_eq_some_iff.mpr hnode] at h
      cases h
    | directory =>
      simp [readEntry, FileTree.read, discard, FileTree.removeFile, hnode, pure, Except.pure]

theorem sift_of_not_isKey (hkey : isKey key ≠ true) :
    c.sift now p key = .error (.cacheRead s!"invalid cache key '{key}'") := by
  unfold sift
  rw [entryPath_of_not_isKey hkey]
  rfl

/-- The files after a pass over some keys: the dead are gone, and nothing else. -/
structure Clears (c : DiskCache) (now : Instant) (t t' : FileTree) (keys : List String) : Prop where
  gone : ∀ key ∈ keys, c.IsDead now t key → t'.node? (c.entryFile key) = none
  rest : ∀ path, (∀ key ∈ keys, c.IsDead now t key → path ≠ c.entryFile key) →
    t'.node? path = t.node? path

namespace Clears

theorem cons_of_not_isDead (hdead : ¬ c.IsDead now t key) (h : c.Clears now t t' keys) :
    c.Clears now t t' (key :: keys) where
  gone := List.forall_mem_cons.mpr ⟨fun hkey => absurd hkey hdead, h.gone⟩
  rest := fun path hpath => h.rest path fun other hother =>
    hpath other (List.mem_cons_of_mem key hother)

/-- A key may come again: it has no file then. -/
theorem cons_of_isDead (hdead : c.IsDead now t key)
    (h : c.Clears now (t.unset (c.entryFile key)) t' keys) : c.Clears now t t' (key :: keys) := by
  have hunset : (t.unset (c.entryFile key)).node? (c.entryFile key) = none := by
    obtain ⟨content, hfile, -⟩ := hdead
    have hroot := FileTree.ne_root_of_file (FileTree.file?_eq_some_iff.mp hfile)
    rw [FileTree.node?_unset, if_pos ⟨rfl, hroot⟩]
  -- Taking the file away is seen at this key alone, and there it leaves nothing to be dead.
  have hstill : ∀ other, other ≠ key →
      (c.IsDead now (t.unset (c.entryFile key)) other ↔ c.IsDead now t other) :=
    fun other hne => isDead_congr (node?_unset_entryFile hne)
  have hover : ¬ c.IsDead now (t.unset (c.entryFile key)) key := by
    rintro ⟨content, hfile, -⟩
    rw [FileTree.file?_eq_some_iff, hunset] at hfile
    cases hfile
  have hgone : t'.node? (c.entryFile key) = none := by
    rw [h.rest _ fun other hother hdead heq => ?_, hunset]
    exact hover (entryFile_inj.mp heq ▸ hdead)
  constructor
  · intro other hother hdead
    by_cases hne : other = key
    · rw [hne, hgone]
    · exact h.gone other (List.mem_of_ne_of_mem hne hother) ((hstill other hne).mpr hdead)
  · intro path hpath
    have hkey : path ≠ c.entryFile key := hpath key (List.mem_cons_self ..) hdead
    rw [h.rest path fun other hother hdead => ?_, FileTree.node?_unset, if_neg fun h => hkey h.1]
    have hne : other ≠ key := by
      rintro rfl
      exact hover hdead
    exact hpath other (List.mem_cons_of_mem key hother) ((hstill other hne).mp hdead)

end Clears

/-- **The first pass** over keys takes away the dead, and what it notes are files of these keys. -/
theorem siftAll_clears (hkeys : ∀ key ∈ keys, isKey key = true) (p : Progress) :
    ∃ p', c.siftAll now p keys = .ok p' ∧ c.Clears now p.tree p'.tree keys ∧
      ∀ entry ∈ p'.live, entry ∈ p.live ∨ ∃ key ∈ keys, entry.path = c.entryFile key := by
  induction keys generalizing p with
  | nil => exact ⟨p, rfl, ⟨nofun, fun _ _ => rfl⟩, fun _ => .inl⟩
  | cons key keys ih =>
    rw [List.forall_mem_cons] at hkeys
    obtain ⟨hkey, hrest⟩ := hkeys
    have hlater {path : Path} (h : ∃ other ∈ keys, path = c.entryFile other) :
        ∃ other ∈ key :: keys, path = c.entryFile other :=
      h.imp fun other hother => ⟨List.mem_cons_of_mem key hother.1, hother.2⟩
    rw [siftAll]
    -- A key without a file changes nothing, a dead one loses its file, and a live one is noted.
    cases hfile : p.tree.file? (c.entryFile key) with
    | none =>
      have hdead : ¬ c.IsDead now p.tree key := by
        rintro ⟨content, hcontent, -⟩
        rw [hfile] at hcontent
        cases hcontent
      obtain ⟨p', hp', hclears, hlive⟩ := ih hrest p
      rw [sift_of_no_file hkey hfile]
      exact ⟨p', hp', hclears.cons_of_not_isDead hdead,
        fun entry hentry => (hlive entry hentry).imp_right hlater⟩
    | some content =>
      rw [sift_eq hkey (FileTree.file?_eq_some_iff.mp hfile)]
      cases hsince : Entry.liveSince? c.lifetime now content with
      | none =>
        obtain ⟨p', hp', hclears, hlive⟩ := ih hrest ⟨p.tree.unset (c.entryFile key), _, p.live⟩
        exact ⟨p', hp', hclears.cons_of_isDead ⟨content, hfile, hsince⟩,
          fun entry hentry => (hlive entry hentry).imp_right hlater⟩
      | some createdAt =>
        have hdead : ¬ c.IsDead now p.tree key := by
          rintro ⟨other, hother, hnone⟩
          rw [hfile, Option.some.injEq] at hother
          rw [← hother, hsince] at hnone
          cases hnone
        obtain ⟨p', hp', hclears, hlive⟩ :=
          ih hrest { p with live := ⟨createdAt, c.entryFile key, content.length⟩ :: p.live }
        refine ⟨p', hp', hclears.cons_of_not_isDead hdead, fun entry hentry => ?_⟩
        rcases hlive entry hentry with hmem | hpath
        · rcases List.mem_cons.mp hmem with rfl | hmem
          · exact .inr ⟨key, List.mem_cons_self .., rfl⟩
          · exact .inl hmem
        · exact .inr (hlater hpath)

theorem siftAll_append {rest : List String} : c.siftAll now p (keys ++ rest) =
    match c.siftAll now p keys with
    | .ok p' => c.siftAll now p' rest
    | .error fault => .error fault := by
  induction keys generalizing p with
  | nil => rfl
  | cons key keys ih =>
    rw [List.cons_append, siftAll, siftAll]
    cases c.sift now p key with
    | ok p' => exact ih
    | error fault => rfl

/-! ## The second pass -/

/-- **The second pass** takes away what it was given, and nothing else. -/
theorem node?_shrink {maxBytes size : Nat} {done : Collected} {live : List Live} (path : Path) :
    (shrink maxBytes size t done live).1.node? path = t.node? path ∨
      (shrink maxBytes size t done live).1.node? path = none ∧ ∃ entry ∈ live, entry.path = path := by
  induction live generalizing t done size with
  | nil => exact .inl rfl
  | cons entry live ih =>
    rw [shrink]
    -- What fits stays. Else the first file goes, if it can be removed, and the others follow.
    split
    · exact .inl rfl
    · cases hremoved : t.removeFile entry.path with
      | error flaw =>
        rw [discard, hremoved]
        rcases ih with hsame | ⟨hnone, other, hother, hpath⟩
        · exact .inl hsame
        · exact .inr ⟨hnone, other, List.mem_cons_of_mem entry hother, hpath⟩
      | ok t₁ =>
        obtain ⟨-, rfl⟩ := FileTree.removeFile_ok_iff.mp hremoved
        rw [discard, hremoved]
        rcases ih with hsame | ⟨hnone, other, hother, hpath⟩
        · rw [hsame, FileTree.node?_unset]
          split
          · rename_i h
            exact .inr ⟨rfl, entry, List.mem_cons_self .., h.1.symm⟩
          · exact .inl rfl
        · exact .inr ⟨hnone, other, List.mem_cons_of_mem entry hother, hpath⟩

/-! ## The whole collection -/

/-- A name of the length of a key that a file has and that is no key. -/
def IsStray (c : DiskCache) (t : FileTree) (name : String) : Prop :=
  isKey name ≠ true ∧
    ∃ path content, c.base <+: path ∧ t.file? path = some content ∧ listedKey? path = some name

/-- A collection that goes through: no file of a key is left that holds no live entry, and what is
not the file of a key is as it was. -/
structure GoesThrough (c : DiskCache) (t : FileTree) (now : Instant) (t' : FileTree) : Prop where
  gone : ∀ key, isKey key = true → c.IsDead now t key → t'.node? (c.entryFile key) = none
  foreign : ∀ path, (∀ key, isKey key = true → path ≠ c.entryFile key) →
    t'.node? path = t.node? path

/-- A collection that halts at a name: the dead before it are gone, and nothing else. -/
structure HaltsAt (c : DiskCache) (t : FileTree) (now : Instant) (name : String) (t' : FileTree) :
    Prop where
  gone : ∀ key, isKey key = true → key < name → c.IsDead now t key →
    t'.node? (c.entryFile key) = none
  rest : ∀ path,
    (∀ key, isKey key = true → key < name → c.IsDead now t key → path ≠ c.entryFile key) →
      t'.node? path = t.node? path

/-- Where only keys are listed, a collection goes through. -/
theorem exists_goesThrough (hkeys : c.keys t = .ok keys) (hall : ∀ key ∈ keys, isKey key = true)
    (hlisted : ∀ key, isKey key = true → c.IsDead now t key → key ∈ keys) :
    ∃ done t', c.collect t now = (.ok done, t') ∧ c.GoesThrough t now t' := by
  obtain ⟨p, hp, hclears, hlive⟩ := @siftAll_clears c now _ hall ⟨t, ⟨0, 0⟩, []⟩
  -- The second pass only gets files of keys, so what is no such file is safe from both passes.
  have hplaces : ∀ entry ∈ byAge p.live.reverse, ∃ key, isKey key = true ∧
      entry.path = c.entryFile key := by
    intro entry hentry
    rw [byAge, List.mem_mergeSort, List.mem_reverse] at hentry
    rcases hlive entry hentry with hmem | ⟨key, hkey, hpath⟩
    · cases hmem
    · exact ⟨key, hall key hkey, hpath⟩
  have hshrunk := fun path => @node?_shrink p.tree c.maxBytes
    (total ((byAge p.live.reverse).map Live.size)) p.collected (byAge p.live.reverse) path
  refine ⟨_, _, by rw [collect, hkeys]; simp only [hp]; rfl, ?_, ?_⟩
  · intro key hkey hdead
    have hgone := hclears.gone key (hlisted key hkey hdead) hdead
    rcases hshrunk (c.entryFile key) with hsame | ⟨hnone, -⟩
    · exact hsame.trans hgone
    · exact hnone
  · intro path hpath
    rcases hshrunk path with hsame | ⟨-, entry, hentry, hplace⟩
    · exact hsame.trans (hclears.rest path fun key hkey _ => hpath key (hall key hkey))
    · obtain ⟨key, hkey, hfile⟩ := hplaces entry hentry
      exact absurd (hplace.symm.trans hfile) (hpath key hkey)

/-- The first name in the order of the listing that is no key is where a collection halts. -/
theorem exists_haltsAt {name : String} {front back : List String}
    (hkeys : c.keys t = .ok (front ++ name :: back))
    (hsorted : (front ++ name :: back).Pairwise (· ≤ ·)) (hfront : ∀ key ∈ front, isKey key = true)
    (hname : isKey name ≠ true)
    (hlisted : ∀ key, isKey key = true → c.IsDead now t key → key ∈ front ++ name :: back) :
    ∃ t', c.collect t now = (.error (.cacheRead s!"invalid cache key '{name}'"), t') ∧
      c.HaltsAt t now name t' := by
  rw [List.pairwise_append, List.pairwise_cons] at hsorted
  obtain ⟨-, ⟨hback, -⟩, hbelow⟩ := hsorted
  have hless : ∀ key ∈ front, key < name := by
    intro key hkey
    refine lt_of_le_of_ne (hbelow key hkey name (List.mem_cons_self ..)) ?_
    rintro rfl
    exact hname (hfront key hkey)
  -- The listing is sorted, so the dead keys below the stray name were all looked at before it.
  have hbefore : ∀ key, isKey key = true → key < name → c.IsDead now t key → key ∈ front := by
    intro key hkey hlt hdead
    have hmem := hlisted key hkey hdead
    rw [List.mem_append, List.mem_cons] at hmem
    rcases hmem with hmem | rfl | hmem
    · exact hmem
    · exact absurd hlt (lt_irrefl _)
    · exact absurd hlt (not_lt.mpr (hback key hmem))
  -- The keys at the front are sifted as ever, and the next name has no path.
  obtain ⟨p, hp, hclears, -⟩ := @siftAll_clears c now _ hfront ⟨t, ⟨0, 0⟩, []⟩
  have hsifted : c.siftAll now ⟨t, ⟨0, 0⟩, []⟩ (front ++ name :: back) =
      .error (.cacheRead s!"invalid cache key '{name}'", p.tree) := by
    rw [siftAll_append, hp]
    simp only [siftAll, sift_of_not_isKey hname]
  refine ⟨p.tree, by rw [collect, hkeys]; simp only [hsifted], ?_, ?_⟩
  · intro key hkey hlt hdead
    exact hclears.gone key (hbefore key hkey hlt hdead) hdead
  · intro path hpath
    exact hclears.rest path fun key hkey hdead =>
      hpath key (hfront key hkey) (hless key hkey) hdead

/-- **What stops a collection** is the least stray name, and nothing else does. The names are looked
at in their order, so the dead files of the keys below that name are gone by then. Everything else
is as it was, and the limit is not looked at any more. -/
theorem collect_among_foreign (ht : t.WellFormed) (hbase : t.node? c.base = some .directory)
    (now : Instant) :
    ((∀ name, ¬ c.IsStray t name) ∧
        ∃ done t', c.collect t now = (.ok done, t') ∧ c.GoesThrough t now t') ∨
      ∃ name, c.IsStray t name ∧ (∀ other, c.IsStray t other → name ≤ other) ∧
        ∃ t', c.collect t now = (.error (.cacheRead s!"invalid cache key '{name}'"), t') ∧
          c.HaltsAt t now name t' := by
  obtain ⟨keys, hkeys, hsorted, hmem⟩ := exists_listed ht hbase
  have hlisted : ∀ key, isKey key = true → c.IsDead now t key → key ∈ keys := by
    rintro key hkey ⟨content, hfile, -⟩
    exact (hmem key).mpr ⟨_, content, base_prefix_entryFile, hfile, listedKey?_entryFile hkey⟩
  -- Either all names are keys, or there is a first one that is not, and by the order it is the
  -- least.
  by_cases hall : ∀ key ∈ keys, isKey key = true
  · refine .inl ⟨?_, exists_goesThrough hkeys hall hlisted⟩
    rintro name ⟨hname, hfile⟩
    exact hname (hall name ((hmem name).mpr hfile))
  · obtain ⟨name, hname⟩ : ∃ name, keys.find? (fun key => !isKey key) = some name := by
      rw [← Option.isSome_iff_exists, List.find?_isSome]
      simpa using hall
    obtain ⟨hstray, front, back, rfl, hfront⟩ := List.find?_eq_some_iff_append.mp hname
    simp only [Bool.not_eq_true', Bool.not_not, ← Bool.not_eq_true] at hstray hfront
    refine .inr ⟨name, ⟨hstray, (hmem name).mp (by simp)⟩, ?_,
      exists_haltsAt hkeys hsorted hfront hstray hlisted⟩
    rintro other ⟨hother, hfile⟩
    have hplace := (hmem other).mpr hfile
    rw [List.mem_append, List.mem_cons] at hplace
    rw [List.pairwise_append, List.pairwise_cons] at hsorted
    rcases hplace with hplace | rfl | hplace
    · exact absurd (hfront other hplace) hother
    · exact le_refl _
    · exact hsorted.2.1.1 other hplace

/-! ### A name in capitals

A file of the base directory has the name of a key in capital letters, and sorts before all keys that
begin with a small one. -/

def capitals : String := String.ofList (List.replicate 64 'A')

def smallKey : String := String.ofList (List.replicate 64 'f')

def larder : DiskCache := ⟨["larder"], 3600, 1000⟩

/-- Beside that file there is an entry that cannot be read. -/
def larderTree : FileTree :=
  ⟨[(["larder"], .directory), (["larder", capitals ++ ".json"], .file []),
    (larder.shard smallKey, .directory), (larder.entryFile smallKey, .file [123])]⟩

theorem wellFormed_larderTree : larderTree.WellFormed :=
  ⟨by decide +kernel, by decide +kernel, by decide +kernel⟩

theorem collect_among_foreign_larder : larderTree.WellFormed ∧
    larderTree.node? larder.base = some .directory ∧
    (((∀ name, ¬ larder.IsStray larderTree name) ∧
        ∃ done t', larder.collect larderTree ⟨0, 0⟩ = (.ok done, t') ∧
          larder.GoesThrough larderTree ⟨0, 0⟩ t') ∨
      ∃ name, larder.IsStray larderTree name ∧
        (∀ other, larder.IsStray larderTree other → name ≤ other) ∧
        ∃ t', larder.collect larderTree ⟨0, 0⟩ =
            (.error (.cacheRead s!"invalid cache key '{name}'"), t') ∧
          larder.HaltsAt larderTree ⟨0, 0⟩ name t') :=
  ⟨wellFormed_larderTree, by decide +kernel,
    collect_among_foreign wellFormed_larderTree (by decide +kernel) ⟨0, 0⟩⟩

/-- The base holds two files, and the one in capitals is listed first. -/
theorem keys_larderTree : larder.keys larderTree = .ok [capitals, smallKey] := by
  have hfiles : larder.files larderTree = .ok (larderTree.filesBelow larder.base) := by
    rw [files, show larderTree.node? larder.base = some .directory by decide +kernel]
  have hlisted : ((larderTree.filesBelow larder.base).filterMap fun file => listedKey? file.1) =
      [capitals, smallKey] := by decide +kernel
  rw [keys, hfiles, Except.map, hlisted, List.mergeSort_of_pairwise]
  decide +kernel

theorem collect_halts_at_capitals :
    isKey smallKey = true ∧ larder.IsDead ⟨0, 0⟩ larderTree smallKey ∧
      larder.collect larderTree ⟨0, 0⟩ =
        (.error (.cacheRead s!"invalid cache key '{capitals}'"), larderTree) := by
  have hcapitals : isKey capitals ≠ true := by decide +kernel
  refine ⟨by decide +kernel, ⟨[123], by decide +kernel, by decide +kernel⟩, ?_⟩
  rw [collect, keys_larderTree]
  simp only [siftAll, sift_of_not_isKey hcapitals]

end CachedRun.DiskCache
