import CachedRun.Proofs.Store.Collection
import CachedRun.Proofs.Store.Writers

/-!
# Leftovers — what stopped calls cost

A call that stops before it renames leaves its temporary file behind. A collection goes by the names
of entries and does not see that file, and `totalSize` counts every file. So the limit that a
collection keeps is a limit on entries:

> after a collection the files have the size of the entries that it kept, which is within the limit,
> and of the temporary files that stopped calls have left, which it leaves as they are.

That is `collect_after_stops`, for calls in any number that are interleaved in any way and stop
anywhere. What a step preserves is only that nothing else lies there (`Strewn`), so calls need not
even have temporary files of their own.
-/

set_option autoImplicit false

namespace CachedRun.DiskCache

variable {c : DiskCache} {t t' : FileTree} {writers : List Writer}

/-- The temporary files of some calls that are there. -/
def leftovers (c : DiskCache) (writers : List Writer) (t : FileTree) : List (Path × Bytes) :=
  (t.filesBelow c.base).filter fun f => (writers.map (Writer.temporary · c)).contains f.1

/-- Whatever lies below the base directory is the file of a key or the temporary file of a call. -/
structure Strewn (c : DiskCache) (writers : List Writer) (t : FileTree) : Prop where
  wellFormed : t.WellFormed
  base : t.node? c.base = some .directory
  places : ∀ f ∈ t.filesBelow c.base,
    (∃ key, c.entryPath key = .ok f.1) ∨ f.1 ∈ writers.map (Writer.temporary · c)

namespace Strewn

/-! ## What calls preserve -/

/-- **One step** of a call adds the file of its key or its temporary file, if anything. -/
theorem advance {w : Writer} {bytes : Nat} {stage next : Stage} (hs : Strewn c writers t)
    (hw : w ∈ writers) (hkey : isKey w.key = true)
    (h : w.advance c bytes t stage = some (next, t')) : Strewn c writers t' := by
  obtain ⟨hwell, heffect⟩ := Writer.advance_effect hs.wellFormed hs.base hkey h
  refine ⟨hwell, heffect.node?_base.trans hs.base, ?_⟩
  rintro ⟨path, content⟩ hf
  obtain ⟨hbelow, hnode⟩ := hwell.mem_filesBelow_iff.mp hf
  by_cases htemporary : path = w.temporary c
  · exact .inr (htemporary ▸ List.mem_map_of_mem hw)
  by_cases hentry : path = c.entryFile w.key
  · exact .inl ⟨w.key, entryPath_ok_iff.mpr ⟨hkey, hentry.symm⟩⟩
  · rw [← FileTree.file?_eq_some_iff, heffect.file?_elsewhere htemporary hentry,
      FileTree.file?_eq_some_iff] at hnode
    exact hs.places _ (hs.wellFormed.mem_filesBelow_iff.mpr ⟨hbelow, hnode⟩)

/-- **Any schedule** does so. -/
theorem run {s : Crew} (hs : Strewn c writers s.tree) (hcalls : ∀ call ∈ s.calls, call.1 ∈ writers)
    (hkeys : ∀ w ∈ writers, isKey w.key = true) (schedule : List Turn) :
    Strewn c writers (s.run c schedule).tree := by
  induction schedule generalizing s with
  | nil => exact hs
  | cons turn schedule ih =>
    rcases Crew.step_cases c s turn with hsame | ⟨i, w, stage, next, tree, hcall, hstep, hturn⟩
    · rw [Crew.run, List.foldl_cons, hsame]
      exact ih hs hcalls
    · have hw : w ∈ writers := hcalls _ (List.mem_of_getElem? hcall)
      rw [Crew.run, List.foldl_cons, hturn]
      refine ih (s := ⟨tree, _, _⟩) (hs.advance hw (hkeys w hw) hstep) fun call hmem => ?_
      rcases List.mem_or_eq_of_mem_set hmem with hmem | rfl
      · exact hcalls call hmem
      · exact hw

/-! ## What a collection makes of it -/

theorem of_onlyEntries (ht : t.WellFormed) (hbase : t.node? c.base = some .directory)
    (honly : c.OnlyEntries t) : Strewn c writers t :=
  ⟨ht, hbase, fun f hf => .inl (honly f hf)⟩

section Collection

variable (hs : Strewn c writers t) (hkeys : ∀ w ∈ writers, isKey w.key = true)
include hs hkeys

/-- The names that are listed are keys, as if the temporary files were not there. -/
theorem exists_keys : ∃ keys, c.keys t = .ok keys ∧ keys.Pairwise (· < ·) ∧
    (∀ key ∈ keys, isKey key = true) ∧
    (t.filesBelow c.base).Perm
      (c.leftovers writers t ++ keys.map fun key => (c.entryFile key, c.document t key)) := by
  -- The files that are no leftovers are entry files, and the listing sees those alone.
  generalize hothers : ((t.filesBelow c.base).filter fun f =>
    !(writers.map (Writer.temporary · c)).contains f.1) = others
  have hsub : others.Sublist (t.filesBelow c.base) := by
    rw [← hothers]
    exact List.filter_sublist
  have hentries : ∀ f ∈ others, ∃ key, c.entryPath key = .ok f.1 := by
    intro f hf
    rw [← hothers, List.mem_filter, Bool.not_eq_true', ← Bool.not_eq_true,
      List.contains_iff_mem] at hf
    exact (hs.places f hf.1).resolve_right hf.2
  obtain ⟨keys, hlisted, hsorted, hall, hperm⟩ := exists_keys_of_files
    ((hsub.map Prod.fst).nodup hs.wellFormed.nodup_filesBelow)
    (fun f hf => (hs.wellFormed.mem_filesBelow_iff.mp (hsub.subset hf)).2) hentries
  refine ⟨keys, ?_, hsorted, hall, ?_⟩
  · have hnames : ((t.filesBelow c.base).filterMap fun f => listedKey? f.1) =
        others.filterMap fun f => listedKey? f.1 := by
      rw [← hothers, List.filterMap_filter]
      refine List.filterMap_congr fun f _ => ?_
      split
      · rfl
      · rename_i hpath
        rw [Bool.not_eq_true', Bool.not_eq_false, List.contains_iff_mem] at hpath
        obtain ⟨w, hw, heq⟩ := List.mem_map.mp hpath
        rw [← heq]
        exact listedKey?_temporaryPath (hkeys w hw)
    rw [DiskCache.keys, files, hs.base]
    simp only [Except.map, hnames, hlisted]
  · calc (t.filesBelow c.base).Perm (c.leftovers writers t ++ others) := by
          rw [← hothers]
          exact (List.filter_append_perm _ _).symm
      _ |>.Perm _ := hperm.append_left _

/-- **Collection among leftovers** keeps the limit among the entries, and the leftovers stay. -/
theorem exists_collect (now : Instant) : ∃ done t' size, c.collect t now = (.ok done, t') ∧
    c.leftovers writers t' = c.leftovers writers t ∧ size ≤ c.maxBytes ∧
    c.totalSize t' =
      .ok (size + total ((c.leftovers writers t).map fun f => f.2.length)) := by
  obtain ⟨keys, hlisted, hsorted, hall, hfiles⟩ := hs.exists_keys hkeys
  have hnode : ∀ key ∈ keys, t.node? (c.entryFile key) = some (.file (c.document t key)) :=
    fun key hkey => (hs.wellFormed.mem_filesBelow_iff.mp (hfiles.mem_iff.mpr
      (List.mem_append_right _ (List.mem_map_of_mem hkey)))).2
  obtain ⟨dead, live, n, hsplit, hcollect⟩ := exists_split hlisted hsorted hall hnode now
  have hparts : (swept dead live n ++ kept live n).Perm keys := by
    rw [swept_append_kept]
    exact hsplit.keys
  have hnodup := hparts.nodup_iff.mpr (hsorted.imp ne_of_lt)
  -- Temporary files and entries have different names, so no leftover is swept.
  have hleft : ∀ f ∈ c.leftovers writers t, f.1 ∉ (swept dead live n).map c.entryFile := by
    intro f hf hswept
    obtain ⟨w, hw, hpath⟩ := List.mem_map.mp (List.contains_iff_mem.mp (List.mem_filter.mp hf).2)
    obtain ⟨key, hkey, hentry⟩ := List.mem_map.mp hswept
    refine temporaryPath_ne_entryFile (hkeys w hw) (hall key ?_) (hpath.trans hentry.symm)
    exact hparts.mem_iff.mp (List.mem_append_left _ hkey)
  -- What lies there afterwards: the leftovers, and the entries that are kept.
  have hafter : ((t.without ((swept dead live n).map c.entryFile)).filesBelow c.base).Perm
      (c.leftovers writers t ++
        (kept live n).map fun key => (c.entryFile key, c.document t key)) := by
    rw [FileTree.filesBelow_without, ← filter_not_mem_swept hnodup]
    refine (hfiles.filter _).trans ?_
    rw [List.filter_append, List.filter_eq_self.mpr fun f hf => by simpa using hleft f hf]
    exact ((hparts.symm.map _).filter _).append_left _
  refine ⟨_, _, total ((kept live n).map fun key => (c.document t key).length), hcollect, ?_, ?_, ?_⟩
  · rw [leftovers, FileTree.filesBelow_without, List.filter_filter, leftovers]
    refine List.filter_congr fun f hf => ?_
    cases htemporary : (writers.map (Writer.temporary · c)).contains f.1 with
    | true => rw [decide_eq_true (hleft f (List.mem_filter.mpr ⟨hf, htemporary⟩)), Bool.and_true]
    | false => rw [Bool.false_and]
  · rw [kept, List.map_map]
    exact hsplit.fits
  · have hbase : (t.without ((swept dead live n).map c.entryFile)).node? c.base =
        some .directory := by
      rw [FileTree.node?_without, if_neg, hs.base]
      rintro ⟨hmem, -⟩
      obtain ⟨key, -, heq⟩ := List.mem_map.mp hmem
      exact entryFile_ne_base heq
    rw [totalSize, files, hbase]
    simp only [Except.map, total_perm (hafter.map fun f => f.2.length), List.map_append,
      total_append, List.map_map, Function.comp_def, Nat.add_comm]

end Collection

end Strewn

/-- **A collection after calls that may have stopped** leaves entries within the limit, and the
temporary files. The limit is kept among the files that are listed, and the total size is that of
all files, so the leftovers come on top of it. -/
theorem collect_after_stops {s : Crew} {schedule : List Turn} (ht : t.WellFormed)
    (hbase : t.node? c.base = some .directory) (honly : c.OnlyEntries t)
    (hkeys : ∀ w ∈ writers, isKey w.key = true)
    (hrun : (Crew.start t writers).run c schedule = s) (now : Instant) :
    ∃ done t' size, c.collect s.tree now = (.ok done, t') ∧
      c.leftovers writers t' = c.leftovers writers s.tree ∧ size ≤ c.maxBytes ∧
      c.totalSize t' =
        .ok (size + total ((c.leftovers writers s.tree).map fun f => f.2.length)) := by
  have hstart : Strewn c writers (Crew.start t writers).tree := .of_onlyEntries ht hbase honly
  have hcalls : ∀ call ∈ (Crew.start t writers).calls, call.1 ∈ writers := by
    intro call hcall
    obtain ⟨w, hw, rfl⟩ := List.mem_map.mp hcall
    exact hw
  rw [← hrun]
  exact (hstart.run hcalls hkeys schedule).exists_collect hkeys now

theorem collect_of_no_keys {now : Instant} (h : c.keys t = .ok []) :
    c.collect t now = (.ok ⟨0, 0⟩, t) := by
  simp [collect, h, siftAll, byAge, shrink]

/-! ### A call that stops before it renames -/

/-- A cache that has no room for any entry. -/
def hatch : DiskCache := ⟨["hatch"], 3600, 10⟩

def emptyHatch : FileTree := ⟨[(["hatch"], .directory)]⟩

def hatchWriters : List Writer := [⟨highKey, "1", numberEntry 1⟩]

/-- The call makes its directory and writes its document. -/
def hatchSchedule : List Turn := [⟨0, 0⟩, ⟨0, 500⟩]

theorem wellFormed_emptyHatch : emptyHatch.WellFormed :=
  ⟨by decide, by decide, by decide⟩

theorem onlyEntries_emptyHatch : hatch.OnlyEntries emptyHatch := nofun

theorem collect_after_stops_hatch : emptyHatch.WellFormed ∧
    emptyHatch.node? hatch.base = some .directory ∧ hatch.OnlyEntries emptyHatch ∧
    (∀ w ∈ hatchWriters, isKey w.key = true) ∧
    ∃ done t' size, hatch.collect
        ((Crew.start emptyHatch hatchWriters).run hatch hatchSchedule).tree ⟨1767225600, 0⟩ =
        (.ok done, t') ∧
      hatch.leftovers hatchWriters t' = hatch.leftovers hatchWriters
        ((Crew.start emptyHatch hatchWriters).run hatch hatchSchedule).tree ∧
      size ≤ hatch.maxBytes ∧
      hatch.totalSize t' = .ok (size + total ((hatch.leftovers hatchWriters
        ((Crew.start emptyHatch hatchWriters).run hatch hatchSchedule).tree).map
          fun f => f.2.length)) := by
  have hkeys : ∀ w ∈ hatchWriters, isKey w.key = true := by decide +kernel
  exact ⟨wellFormed_emptyHatch, rfl, onlyEntries_emptyHatch, hkeys,
    collect_after_stops wellFormed_emptyHatch rfl onlyEntries_emptyHatch hkeys rfl _⟩

/-- The collection finds nothing to remove, and the files are too large. -/
theorem oversize_after_stop : ∃ t' size,
    hatch.collect ((Crew.start emptyHatch hatchWriters).run hatch hatchSchedule).tree
      ⟨1767225600, 0⟩ = (.ok ⟨0, 0⟩, t') ∧
    hatch.totalSize t' = .ok size ∧ hatch.maxBytes < size := by
  have hbase : ((Crew.start emptyHatch hatchWriters).run hatch hatchSchedule).tree.node?
      hatch.base = some .directory := by decide +kernel
  have hnames : ((((Crew.start emptyHatch hatchWriters).run hatch hatchSchedule).tree.filesBelow
      hatch.base).filterMap fun f => listedKey? f.1) = [] := by decide +kernel
  have hlarge : hatch.maxBytes < total
      ((((Crew.start emptyHatch hatchWriters).run hatch hatchSchedule).tree.filesBelow
        hatch.base).map fun f => f.2.length) := by decide +kernel
  generalize ((Crew.start emptyHatch hatchWriters).run hatch hatchSchedule).tree = t at *
  have hfiles : hatch.files t = .ok (t.filesBelow hatch.base) := by rw [files, hbase]
  have hkeys : hatch.keys t = .ok [] := by
    rw [keys, hfiles, Except.map, hnames, List.mergeSort_nil]
  exact ⟨t, _, collect_of_no_keys hkeys, by rw [totalSize, hfiles]; rfl, hlarge⟩

end CachedRun.DiskCache
