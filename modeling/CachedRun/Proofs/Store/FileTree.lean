import CachedRun.Store.FileTree
import CachedRun.Proofs.Result
import Mathlib.Data.List.Nodup
import Mathlib.Data.List.Infix

/-!
# File trees — what a path leads to

A file tree is a list of paths with nodes, and everything that is said about it is said about
`node?`, which looks a path up. This file says for each operation what `node?` gives afterwards, and
what is listed below a directory.

Lookup finds the first node of a path and listing finds all of them, so the two agree only on a tree
that lists no path twice. That is one part of `WellFormed`; the other is that whatever is listed lies
in a directory. Every operation keeps it.
-/

set_option autoImplicit false

namespace CachedRun.FileTree

open Result

variable {t t' : FileTree} {path other base : Path} {node : Node} {content : Bytes}

/-! ## Lookup -/

@[simp] theorem node?_root : t.node? [] = some .directory := if_pos rfl

theorem node?_of_ne_root (h : path ≠ []) :
    t.node? path = (t.nodes.find? fun n => n.1 = path).map Prod.snd := if_neg h

/-- Dropping one path does not hide another. -/
theorem find?_elsewhere {nodes : List (Path × Node)} (h : other ≠ path) :
    ((nodes.filter fun n => n.1 ≠ path).find? fun n => n.1 = other) =
      nodes.find? fun n => n.1 = other := by
  rw [List.find?_filter]
  congr 1
  funext n
  by_cases hn : n.1 = other
  · simp [hn, h]
  · simp [hn]

theorem find?_dropped {nodes : List (Path × Node)} :
    ((nodes.filter fun n => n.1 ≠ path).find? fun n => n.1 = path) = none := by
  rw [List.find?_eq_none]
  intro n hn
  simpa using (List.mem_filter.mp hn).2

theorem node?_set (h : path ≠ []) :
    (t.set path node).node? other = if other = path then some node else t.node? other := by
  by_cases hroot : other = []
  · subst hroot
    rw [node?_root, node?_root, if_neg (Ne.symm h)]
  rw [node?_of_ne_root hroot, node?_of_ne_root hroot, set, List.find?_append]
  by_cases hother : other = path
  · subst hother
    rw [find?_dropped]
    simp
  · rw [find?_elsewhere hother, if_neg hother]
    simp [Ne.symm hother]

theorem node?_unset :
    (t.unset path).node? other = if other = path ∧ other ≠ [] then none else t.node? other := by
  by_cases hroot : other = []
  · simp [hroot]
  rw [node?_of_ne_root hroot, node?_of_ne_root hroot, unset]
  by_cases hother : other = path
  · subst hother
    rw [find?_dropped, if_pos ⟨rfl, hroot⟩]
    rfl
  · rw [find?_elsewhere hother, if_neg (fun h => hother h.1)]

theorem file?_eq_some_iff : t.file? path = some content ↔ t.node? path = some (.file content) := by
  unfold file?
  split
  · rename_i found h
    simp [h]
  · rename_i h
    constructor
    · nofun
    · intro hnode
      exact absurd hnode (h content)

theorem file?_congr (h : t'.node? path = t.node? path) : t'.file? path = t.file? path := by
  unfold file?
  rw [h]

theorem isDirectory_iff : t.isDirectory path = true ↔ t.node? path = some .directory := by
  simp [isDirectory]

/-- A tree less some of its paths. -/
def without (t : FileTree) (paths : List Path) : FileTree :=
  ⟨t.nodes.filter fun n => n.1 ∉ paths⟩

@[simp] theorem without_nil : t.without [] = t := by
  simp [without]

theorem without_unset {paths : List Path} :
    (t.unset path).without paths = t.without (path :: paths) := by
  rw [without, unset, List.filter_filter, without]
  congr 1
  refine List.filter_congr fun n _ => ?_
  by_cases hpath : n.1 = path <;> simp [hpath]

theorem without_append {paths others : List Path} :
    (t.without paths).without others = t.without (paths ++ others) := by
  rw [without, without, List.filter_filter, without]
  congr 1
  refine List.filter_congr fun n _ => ?_
  simp only [List.mem_append, not_or, Bool.decide_and, Bool.and_comm]

theorem node?_without {paths : List Path} :
    (t.without paths).node? other = if other ∈ paths ∧ other ≠ [] then none else t.node? other := by
  induction paths generalizing t with
  | nil => simp
  | cons path paths ih =>
    rw [← without_unset, ih, node?_unset]
    by_cases hroot : other = []
    · simp [hroot]
    by_cases hpath : other = path
    · subst hpath
      simp [hroot]
    · simp [hroot, hpath]

/-! ## What operations do

When each operation goes through, and which node is at which path then: the one that was set there,
or the one before. -/

theorem read_ok_iff : t.read path = .ok content ↔ t.node? path = some (.file content) := by
  unfold read
  split <;> rename_i h <;> simp [h]

theorem ne_root_of_obstacle? (h : t.obstacle? path = none) : path ≠ [] := by
  rintro rfl
  simp [obstacle?] at h

theorem ne_root_of_file (h : t.node? path = some (.file content)) : path ≠ [] := by
  rintro rfl
  rw [node?_root] at h
  cases h

theorem obstacle?_eq_none_iff : t.obstacle? path = none ↔
    t.node? path ≠ some .directory ∧ t.node? path.dropLast = some .directory := by
  unfold obstacle?
  split
  · rename_i h
    simp [h]
  · rename_i h
    rw [← isDirectory_iff]
    split
    · rename_i hparent
      simpa [hparent] using h
    · rename_i hparent
      simp [hparent]

theorem write_ok_iff : t.write path content = .ok t' ↔
    t.obstacle? path = none ∧ t.set path (.file content) = t' := by
  unfold write
  split <;> rename_i h <;> simp [h]

theorem removeFile_ok_iff : t.removeFile path = .ok t' ↔
    (∃ content, t.node? path = some (.file content)) ∧ t.unset path = t' := by
  unfold removeFile
  split <;> rename_i h <;> simp [h]

theorem rename_ok_iff {source target : Path} : t.rename source target = .ok t' ↔
    ∃ content, t.node? source = some (.file content) ∧
      (t.unset source).obstacle? target = none ∧
      (t.unset source).set target (.file content) = t' := by
  simp only [rename, bind_eq_ok_iff, read_ok_iff, write_ok_iff]

/-! ## Making directories -/

/-- Directories that are there are passed. -/
theorem createDirectoriesIn_append {rest : Path} :
    ∀ {path base : Path}, (∀ pre, pre <+: path → t.isDirectory (base ++ pre) = true) →
      t.createDirectoriesIn base (path ++ rest) = t.createDirectoriesIn (base ++ path) rest
  | [], base, _ => by rw [List.append_nil, List.nil_append]
  | name :: path, base, h => by
    have hname : t.node? (base ++ [name]) = some .directory :=
      isDirectory_iff.mp (h [name] ⟨path, rfl⟩)
    have hpath : ∀ pre, pre <+: path → t.isDirectory (base ++ [name] ++ pre) = true := by
      intro pre hpre
      rw [List.append_assoc]
      exact h (name :: pre) ((List.prefix_cons_inj name).mpr hpre)
    rw [List.cons_append, createDirectoriesIn]
    simp only [hname]
    rw [createDirectoriesIn_append hpath, List.append_assoc, List.singleton_append]

/-- Only directories are made, and only where nothing is. -/
theorem node?_createDirectoriesIn :
    ∀ {path base : Path} {t t' : FileTree}, t.createDirectoriesIn base path = .ok t' →
      t'.node? other = t.node? other ∨ t.node? other = none ∧ t'.node? other = some .directory
  | [], _, _, _, h => by
    cases h
    exact .inl rfl
  | name :: path, base, t, t', h => by
    rw [createDirectoriesIn] at h
    cases hnode : t.node? (base ++ [name]) with
    | some node =>
      cases node with
      | directory =>
        simp only [hnode] at h
        exact node?_createDirectoriesIn h
      | file content =>
        simp only [hnode] at h
        cases h
    | none =>
      simp only [hnode] at h
      have hset : (t.set (base ++ [name]) .directory).node? other =
          if other = base ++ [name] then some .directory else t.node? other :=
        node?_set (List.append_ne_nil_of_right_ne_nil base (List.cons_ne_nil name []))
      by_cases hother : other = base ++ [name]
      · -- The directory that is made here is passed by those that are made below it.
        rw [if_pos hother] at hset
        rcases node?_createDirectoriesIn h with hsame | ⟨hmissing, _⟩
        · exact .inr ⟨by rw [hother, hnode], by rw [hsame, hset]⟩
        · rw [hmissing] at hset
          cases hset
      · rw [if_neg hother] at hset
        rw [← hset]
        exact node?_createDirectoriesIn h

/-- Making directories leaves all files as they are. -/
theorem file?_createDirectories (h : t.createDirectories path = .ok t') :
    t'.file? other = t.file? other := by
  have hnode : t'.node? other = t.node? other ∨
      t.node? other = none ∧ t'.node? other = some .directory := node?_createDirectoriesIn h
  rcases hnode with hsame | ⟨hmissing, hmade⟩
  · exact file?_congr hsame
  · unfold file?
    rw [hmissing, hmade]

/-! ## Well-formed trees

Nodes lie in directories. The operations keep that, since they look for the directory before they
write into it. -/

/-- A tree that lists each path once, and whatever it lists lies in a directory. -/
structure WellFormed (t : FileTree) : Prop where
  distinct : (t.nodes.map Prod.fst).Nodup
  rootless : [] ∉ t.nodes.map Prod.fst
  parents : ∀ n ∈ t.nodes, t.node? n.1.dropLast = some .directory

theorem wellFormed_empty : WellFormed .empty where
  distinct := List.nodup_nil
  rootless := List.not_mem_nil
  parents := nofun

namespace WellFormed

variable (ht : t.WellFormed)
include ht

theorem ne_root {n : Path × Node} (hn : n ∈ t.nodes) : n.1 ≠ [] := by
  intro h
  exact ht.rootless (h ▸ List.mem_map_of_mem hn)

theorem mem_nodes_iff (h : path ≠ []) : (path, node) ∈ t.nodes ↔ t.node? path = some node := by
  rw [node?_of_ne_root h]
  constructor
  · intro hmem
    cases hfind : t.nodes.find? fun n => n.1 = path with
    | none =>
      rw [List.find?_eq_none] at hfind
      simpa using hfind _ hmem
    | some n =>
      -- What is found first is what is listed, since no path is listed twice.
      have hpath : n.1 = path := by simpa using List.find?_some hfind
      have hsame : n = (path, node) :=
        List.inj_on_of_nodup_map ht.distinct (List.mem_of_find?_eq_some hfind) hmem hpath
      rw [hsame]
      rfl
  · intro hnode
    obtain ⟨n, hfind, rfl⟩ := Option.map_eq_some_iff.mp hnode
    have hpath : n.1 = path := by simpa using List.find?_some hfind
    rw [← hpath]
    exact List.mem_of_find?_eq_some hfind

/-- What lies somewhere lies in a directory. -/
theorem parent (h : path ≠ []) (hnode : t.node? path = some node) :
    t.node? path.dropLast = some .directory :=
  ht.parents _ ((ht.mem_nodes_iff h).mpr hnode)

/-- On the way to whatever is there, there are directories. -/
theorem isDirectory_of_prefix {pre : Path} (hpre : pre <+: path) (hne : pre ≠ path)
    (hnode : t.node? path = some node) : t.node? pre = some .directory := by
  induction path using List.reverseRecOn generalizing node with
  | nil => exact absurd (List.prefix_nil.mp hpre) hne
  | append_singleton path name ih =>
    have hparent := ht.parent (by simp) hnode
    rw [List.dropLast_concat] at hparent
    rcases List.prefix_concat_iff.mp hpre with rfl | hpre
    · exact absurd rfl hne
    · by_cases h : pre = path
      · rw [h, hparent]
      · exact ih hpre h hparent

theorem set (h : path ≠ []) (hparent : t.node? path.dropLast = some .directory)
    (hnode : t.node? path = some .directory → node = .directory) :
    (t.set path node).WellFormed where
  distinct := by
    rw [FileTree.set, List.map_append, List.nodup_append]
    refine ⟨(List.filter_sublist.map _).nodup ht.distinct, List.nodup_singleton _, ?_⟩
    intro a ha b hb
    obtain ⟨n, hn, rfl⟩ := List.mem_map.mp ha
    rw [List.map_singleton, List.mem_singleton] at hb
    rw [hb]
    simpa using (List.mem_filter.mp hn).2
  rootless := by
    rw [FileTree.set, List.map_append, List.mem_append, not_or]
    refine ⟨fun hroot => ht.rootless ((List.filter_sublist.map _).subset hroot), ?_⟩
    simpa using Ne.symm h
  parents := by
    intro n hn
    rw [node?_set h]
    split
    · -- The parent is what was set: it was a directory before, so it is one now.
      rename_i hpath
      rcases List.mem_append.mp hn with hn | hn
      · have hdirectory := ht.parents n (List.mem_filter.mp hn).1
        rw [hpath] at hdirectory
        rw [hnode hdirectory]
      · rw [List.mem_singleton] at hn
        rw [hn] at hpath
        rw [hpath] at hparent
        rw [hnode hparent]
    · rcases List.mem_append.mp hn with hn | hn
      · exact ht.parents n (List.mem_filter.mp hn).1
      · rw [List.mem_singleton] at hn
        rw [hn]
        exact hparent

theorem unset (hnode : t.node? path ≠ some .directory) : (t.unset path).WellFormed where
  distinct := (List.filter_sublist.map _).nodup ht.distinct
  rootless := fun hroot => ht.rootless ((List.filter_sublist.map _).subset hroot)
  parents := by
    intro n hn
    have hdirectory := ht.parents n (List.mem_filter.mp hn).1
    rw [node?_unset, if_neg]
    · exact hdirectory
    · rintro ⟨hpath, -⟩
      exact hnode (hpath ▸ hdirectory)

theorem without {paths : List Path} (hfiles : ∀ path ∈ paths, t.node? path ≠ some .directory) :
    (t.without paths).WellFormed := by
  induction paths generalizing t with
  | nil =>
    rw [without_nil]
    exact ht
  | cons path paths ih =>
    rw [List.forall_mem_cons] at hfiles
    rw [← without_unset]
    refine ih (ht.unset hfiles.1) fun other hother => ?_
    rw [node?_unset]
    split
    · nofun
    · exact hfiles.2 other hother

/-- From a directory that is there, directories are made as from the root. -/
theorem createDirectories_append {rest : Path} (hbase : t.node? base = some .directory) :
    t.createDirectories (base ++ rest) = t.createDirectoriesIn base rest := by
  refine createDirectoriesIn_append fun pre hpre => ?_
  rw [List.nil_append, isDirectory_iff]
  by_cases h : pre = base
  · rw [h, hbase]
  · exact ht.isDirectory_of_prefix hpre h hbase

/-- A directory that is there need not be made. -/
theorem createDirectories_self (hbase : t.node? base = some .directory) :
    t.createDirectories base = .ok t := by
  have happend : t.createDirectories (base ++ []) = t.createDirectoriesIn base [] :=
    ht.createDirectories_append hbase
  rwa [List.append_nil] at happend

/-! ### Operations that go through

Where nothing stands in the way, an operation succeeds, and the tree afterwards is well-formed and
differs from the one before at the paths of the operation only. -/

theorem createDirectories_child {name : String} (hbase : t.node? base = some .directory)
    (hnode : ∀ content, t.node? (base ++ [name]) ≠ some (.file content)) :
    ∃ t', t.createDirectories (base ++ [name]) = .ok t' ∧ t'.WellFormed ∧ ∀ other, t'.node? other =
      if other = base ++ [name] then some .directory else t.node? other := by
  have hroot : base ++ [name] ≠ [] := by simp
  rw [ht.createDirectories_append hbase, createDirectoriesIn]
  cases hshown : t.node? (base ++ [name]) with
  | none =>
    refine ⟨_, rfl, ht.set hroot ?_ (fun _ => rfl), fun other => node?_set hroot⟩
    rw [List.dropLast_concat, hbase]
  | some node =>
    cases node with
    | file content => exact absurd hshown (hnode content)
    | directory =>
      refine ⟨t, rfl, ht, fun other => ?_⟩
      split
      · rename_i h
        rw [h, hshown]
      · rfl

theorem write (path : Path) (content : Bytes) (hfree : t.node? path ≠ some .directory)
    (hparent : t.node? path.dropLast = some .directory) :
    ∃ t', t.write path content = .ok t' ∧ t'.WellFormed ∧ ∀ other, t'.node? other =
      if other = path then some (.file content) else t.node? other := by
  have hroom := obstacle?_eq_none_iff.mpr ⟨hfree, hparent⟩
  have hroot := ne_root_of_obstacle? hroom
  exact ⟨_, write_ok_iff.mpr ⟨hroom, rfl⟩, ht.set hroot hparent fun h => absurd h hfree,
    fun other => node?_set hroot⟩

theorem removeFile (hnode : t.node? path = some (.file content)) :
    ∃ t', t.removeFile path = .ok t' ∧ t'.WellFormed ∧ ∀ other, t'.node? other =
      if other = path then none else t.node? other := by
  have hroot := ne_root_of_file hnode
  refine ⟨_, removeFile_ok_iff.mpr ⟨⟨content, hnode⟩, rfl⟩, ht.unset (by simp [hnode]),
    fun other => ?_⟩
  rw [node?_unset]
  by_cases h : other = path
  · rw [if_pos ⟨h, h ▸ hroot⟩, if_pos h]
  · rw [if_neg (fun hp => h hp.1), if_neg h]

theorem rename {source : Path} (target : Path) (hsource : t.node? source = some (.file content))
    (hne : source ≠ target) (hfree : t.node? target ≠ some .directory)
    (hparent : t.node? target.dropLast = some .directory) :
    ∃ t', t.rename source target = .ok t' ∧ t'.WellFormed ∧ ∀ other, t'.node? other =
      if other = target then some (.file content)
      else if other = source then none
      else t.node? other := by
  obtain ⟨t₁, hremoved, hwell₁, hnode₁⟩ := ht.removeFile hsource
  have hunset := (removeFile_ok_iff.mp hremoved).2
  -- The source is gone when the target is written, so it must not be what the target lies in.
  have hway : target.dropLast ≠ source := by
    rintro rfl
    rw [hsource] at hparent
    cases hparent
  obtain ⟨t₂, hwritten, hwell₂, hnode₂⟩ := hwell₁.write target content
    (by rwa [hnode₁, if_neg hne.symm]) (by rwa [hnode₁, if_neg hway])
  refine ⟨t₂, ?_, hwell₂, fun other => by rw [hnode₂, hnode₁]⟩
  rw [← hunset, write_ok_iff] at hwritten
  exact rename_ok_iff.mpr ⟨content, hsource, hwritten⟩

/-! ### Listing -/

theorem mem_filesBelow_iff : (path, content) ∈ t.filesBelow base ↔
    isBelow base path = true ∧ t.node? path = some (.file content) := by
  rw [filesBelow, List.mem_filterMap]
  constructor
  · rintro ⟨⟨p, node⟩, hmem, hsome⟩
    cases node with
    | directory => cases hsome
    | file b =>
      simp only at hsome
      split at hsome
      · rename_i hbelow
        cases hsome
        exact ⟨hbelow, (ht.mem_nodes_iff (ht.ne_root hmem)).mp hmem⟩
      · cases hsome
  · rintro ⟨hbelow, hnode⟩
    exact ⟨(path, .file content), (ht.mem_nodes_iff (ne_root_of_file hnode)).mpr hnode,
      by simp [hbelow]⟩

theorem nodup_filesBelow : ((t.filesBelow base).map Prod.fst).Nodup := by
  refine List.Sublist.nodup ?_ ht.distinct
  unfold filesBelow
  induction t.nodes with
  | nil => exact .slnil
  | cons n nodes ih =>
    obtain ⟨p, node⟩ := n
    cases node with
    | directory => exact .cons _ ih
    | file b =>
      rw [List.filterMap_cons]
      by_cases hbelow : isBelow base p = true
      · simpa [hbelow] using ih
      · simpa [hbelow] using ih.cons p

end WellFormed

theorem filesBelow_without {paths : List Path} :
    (t.without paths).filesBelow base = (t.filesBelow base).filter fun f => f.1 ∉ paths := by
  unfold filesBelow without
  induction t.nodes with
  | nil => rfl
  | cons n nodes ih =>
    obtain ⟨p, node⟩ := n
    by_cases hp : p ∈ paths
    · rw [List.filter_cons_of_neg (by simpa using hp), ih]
      cases node with
      | directory => rfl
      | file b => by_cases hbelow : isBelow base p = true <;> simp [hbelow, hp]
    · rw [List.filter_cons_of_pos (by simpa using hp), List.filterMap_cons, ih]
      cases node with
      | directory => rfl
      | file b => by_cases hbelow : isBelow base p = true <;> simp [hbelow, hp]

end CachedRun.FileTree
