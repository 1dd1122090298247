import CachedRun.Proofs.Store.Listing

/-!
# Collection — what is taken away and what stays

Collection goes over the files twice. The first time it takes away what cannot be read or has
expired, in the order of keys; the second time it takes live entries away, the oldest first, until
the rest fits. Each pass is a loop with a running count, and for each there is one statement about
the whole loop: `siftAll_eq` and `shrink_eq`.

`exists_split` puts the two together. A collection splits the keys that it lists into those of dead
entries and the live ones by age, and takes away the dead and the first few of the live. Everything
else is a consequence, as long as there are no files but those of keys (`exists_sweep`): **what is
left is the files of the other keys, byte for byte, the counts are the differences that they claim to
be, and nothing is left to collect** (`collect_exact`).
-/

set_option autoImplicit false

namespace CachedRun

/-- When the entry was made that a document holds, unless it cannot be read or has expired. -/
def Entry.liveSince? (lifetime : Nat) (now : Instant) (document : Bytes) : Option Instant :=
  (Entry.read? document).bind fun e => if e.isExpired lifetime now then none else some e.createdAt

namespace DiskCache

variable {c : DiskCache} {t t' : FileTree} {now : Instant} {key : String}

/-! ## The first pass

The keys are looked at one after the other. What is noted of the live ones are times, places and
sizes, for the second pass, and the dead are counted as they go. -/

theorem removeFile_entryFile {path : Path} {content : Bytes}
    (hnode : t.node? path = some (.file content)) (done : Collected) :
    discard t done path content.length =
      some (t.unset path, ⟨done.removed + 1, done.freed + content.length⟩) := by
  unfold discard
  rw [FileTree.removeFile_ok_iff.mpr ⟨⟨content, hnode⟩, rfl⟩]

/-- **One key**: its entry is noted if it is live and taken away if it is not. -/
theorem sift_eq {p : Progress} {content : Bytes} (hkey : isKey key = true)
    (hnode : p.tree.node? (c.entryFile key) = some (.file content)) :
    c.sift now p key = .ok
      (match Entry.liveSince? c.lifetime now content with
        | some createdAt =>
          { p with live := ⟨createdAt, c.entryFile key, content.length⟩ :: p.live }
        | none =>
          ⟨p.tree.unset (c.entryFile key),
            ⟨p.collected.removed + 1, p.collected.freed + content.length⟩, p.live⟩) := by
  have hread : p.tree.read (c.entryFile key) = .ok content := FileTree.read_ok_iff.mpr hnode
  unfold sift Entry.liveSince?
  rw [entryPath_of_isKey hkey]
  simp only [bind, Except.bind, hnode, readEntry, hread]
  cases hentry : Entry.read? content with
  | none => simp [removeFile_entryFile hnode, pure, Except.pure]
  | some e =>
    cases hexpired : e.isExpired c.lifetime now with
    | true => simp [hexpired, removeFile_entryFile hnode, pure, Except.pure]
    | false => simp [hexpired, pure, Except.pure]

/-- The keys of documents that hold no live entry. -/
def deadKeys (c : DiskCache) (now : Instant) (document : String → Bytes) (keys : List String) :
    List String :=
  keys.filter fun key => (Entry.liveSince? c.lifetime now (document key)).isNone

/-- The keys of documents that hold a live entry, with the time that it was made at. -/
def liveKeys (c : DiskCache) (now : Instant) (document : String → Bytes) (keys : List String) :
    List (Instant × String) :=
  keys.filterMap fun key =>
    (Entry.liveSince? c.lifetime now (document key)).map fun createdAt => (createdAt, key)

section Split

variable {document : String → Bytes} {keys : List String}

theorem liveSince?_of_mem_deadKeys (h : key ∈ c.deadKeys now document keys) :
    Entry.liveSince? c.lifetime now (document key) = none := by
  simpa using (List.mem_filter.mp h).2

theorem liveSince?_of_mem_liveKeys {a : Instant × String} (h : a ∈ c.liveKeys now document keys) :
    Entry.liveSince? c.lifetime now (document a.2) = some a.1 := by
  obtain ⟨key, -, hsince⟩ := List.mem_filterMap.mp h
  obtain ⟨createdAt, hsome, rfl⟩ := Option.map_eq_some_iff.mp hsince
  exact hsome

theorem map_snd_liveKeys : (c.liveKeys now document keys).map Prod.snd =
    keys.filter fun key => !(Entry.liveSince? c.lifetime now (document key)).isNone := by
  induction keys with
  | nil => rfl
  | cons key keys ih =>
    rw [liveKeys] at ih ⊢
    cases hlive : Entry.liveSince? c.lifetime now (document key) <;> simp [hlive, ih]

theorem deadKeys_append_liveKeys : (c.deadKeys now document keys ++
    (c.liveKeys now document keys).map Prod.snd).Perm keys := by
  rw [map_snd_liveKeys, deadKeys]
  exact List.filter_append_perm _ keys

theorem pairwise_liveKeys (hsorted : keys.Pairwise (· < ·)) :
    (c.liveKeys now document keys).Pairwise fun a b => a.2 < b.2 := by
  rw [← List.pairwise_map (f := Prod.snd) (R := (· < ·)), map_snd_liveKeys]
  exact hsorted.sublist List.filter_sublist

end Split

/-- A live entry as collection sees it. -/
def seen (c : DiskCache) (document : String → Bytes) (a : Instant × String) : Live :=
  ⟨a.1, c.entryFile a.2, (document a.2).length⟩

/-- **The first pass** takes away the dead and notes the live. -/
theorem siftAll_eq {document : String → Bytes} {keys : List String} (hnodup : keys.Nodup)
    (hkeys : ∀ key ∈ keys, isKey key = true) {p : Progress}
    (hnode : ∀ key ∈ keys, p.tree.node? (c.entryFile key) = some (.file (document key))) :
    c.siftAll now p keys = .ok
      ⟨p.tree.without ((c.deadKeys now document keys).map c.entryFile),
        ⟨p.collected.removed + (c.deadKeys now document keys).length,
          p.collected.freed +
            total ((c.deadKeys now document keys).map fun key => (document key).length)⟩,
        ((c.liveKeys now document keys).map (c.seen document)).reverse ++ p.live⟩ := by
  induction keys generalizing p with
  | nil => simp [siftAll, deadKeys, liveKeys, total]
  | cons key keys ih =>
    rw [List.nodup_cons] at hnodup
    rw [List.forall_mem_cons] at hkeys hnode
    rw [siftAll, sift_eq hkeys.1 hnode.1]
    cases hlive : Entry.liveSince? c.lifetime now (document key) with
    | some createdAt =>
      refine (ih hnodup.2 hkeys.2 ?_).trans ?_
      · exact hnode.2
      simp [deadKeys, liveKeys, hlive, seen]
    | none =>
      -- The files of the keys that follow are where they were.
      have hrest : ∀ other ∈ keys, (p.tree.unset (c.entryFile key)).node? (c.entryFile other) =
          some (.file (document other)) := by
        intro other hother
        rw [node?_unset_entryFile (ne_of_mem_of_not_mem hother hnodup.1)]
        exact hnode.2 other hother
      refine (ih hnodup.2 hkeys.2 ?_).trans ?_
      · exact hrest
      simp [deadKeys, liveKeys, hlive, FileTree.without_unset, total, Nat.add_assoc, Nat.add_comm 1]

/-! ## The order of age

The notes are sorted by the time alone, with a sort that is stable. As they come in the order of
their keys, entries of one time are ordered by key. -/

/-- One entry is older than another; of two that were made at one time the lower key counts as the
older. -/
def Older (a b : Instant × String) : Prop :=
  a.1.before b.1 = true ∨ a.1 = b.1 ∧ a.2 < b.2

theorem not_before_trans {a b d : Instant} (hab : b.before a = false) (hbd : d.before b = false) :
    d.before a = false := by
  simp only [Instant.before, Bool.or_eq_false_iff, Bool.and_eq_false_imp, decide_eq_false_iff_not,
    beq_iff_eq] at *
  omega

theorem not_before_total (a b : Instant) : b.before a = false ∨ a.before b = false := by
  simp only [Instant.before, Bool.or_eq_false_iff, Bool.and_eq_false_imp, decide_eq_false_iff_not,
    beq_iff_eq]
  omega

theorem eq_of_not_before {a b : Instant} (hab : b.before a = false) (hba : a.before b = false) :
    a = b := by
  obtain ⟨s, n⟩ := a
  obtain ⟨s', n'⟩ := b
  simp only [Instant.before, Bool.or_eq_false_iff, Bool.and_eq_false_imp, decide_eq_false_iff_not,
    beq_iff_eq] at hab hba
  rw [Instant.mk.injEq]
  omega

/-- Keys in ascending order are sorted by age with `byAge`, since that does not move entries of one
age past each other. -/
theorem exists_byAge {document : String → Bytes} {live : List (Instant × String)}
    (hkeys : live.Pairwise fun a b => a.2 < b.2) :
    ∃ sorted : List (Instant × String),
      byAge (live.map (c.seen document)) = sorted.map (c.seen document) ∧
      sorted.Perm live ∧ sorted.Pairwise Older := by
  let le (a b : Instant × String) : Bool := !b.1.before a.1
  have hle {a b : Instant × String} : le a b = true ↔ b.1.before a.1 = false := by simp [le]
  have htrans : ∀ a b d, le a b → le b d → le a d := by
    intro a b d hab hbd
    rw [hle] at *
    exact not_before_trans hab hbd
  have htotal : ∀ a b, le a b || le b a := by
    intro a b
    rw [Bool.or_eq_true, hle, hle]
    exact not_before_total a.1 b.1
  refine ⟨live.mergeSort le, ?_, List.mergeSort_perm live le, ?_⟩
  · rw [byAge, List.map_mergeSort]
    intros
    rfl
  have hsorted := List.pairwise_mergeSort htrans htotal live
  -- The entries of one age are in one order before and after.
  have hage (i : Instant) :
      live.filter (fun a => a.1 = i) = (live.mergeSort le).filter fun a => a.1 = i := by
    have hties : (live.filter fun a => a.1 = i).Pairwise fun a b => le a b = true := by
      refine List.pairwise_iff_forall_sublist.mpr fun {a b} hab => ?_
      have ha := (List.mem_filter.mp (hab.subset (List.mem_cons_self ..))).2
      have hb := (List.mem_filter.mp (hab.subset (List.mem_cons_of_mem _ (List.mem_cons_self ..)))).2
      rw [decide_eq_true_eq] at ha hb
      rw [hle, ha, hb]
      simp [Instant.before]
    have hsub := (List.sublist_mergeSort htrans htotal hties List.filter_sublist).filter
      fun a => decide (a.1 = i)
    rw [List.filter_filter] at hsub
    simp only [Bool.and_self] at hsub
    exact hsub.eq_of_length ((List.mergeSort_perm live le).filter _).length_eq.symm
  rw [List.pairwise_iff_forall_sublist] at hsorted ⊢
  intro a b hsub
  have hab := hle.mp (hsorted hsub)
  cases hba : a.1.before b.1 with
  | true => exact .inl hba
  | false =>
    have heq := eq_of_not_before hab hba
    refine .inr ⟨heq, ?_⟩
    have htie := hsub.filter fun d => decide (d.1 = a.1)
    rw [← hage] at htie
    simp only [heq, List.filter_cons, List.filter_nil, decide_true, if_true] at htie
    exact List.pairwise_iff_forall_sublist.mp hkeys (htie.trans List.filter_sublist)

/-! ## The second pass

What is passed on from entry to entry is the size of those that are left, so an entry goes exactly
if it and all younger ones are too much. -/

/-- **The second pass** takes away from the front what is too much, and no more than that. By
induction on the entries, where the size that is passed on is the size of those that are left. -/
theorem shrink_eq {document : String → Bytes} {live : List (Instant × String)} {maxBytes : Nat}
    (hnodup : (live.map Prod.snd).Nodup) {t : FileTree} (done : Collected)
    (hnode : ∀ a ∈ live, t.node? (c.entryFile a.2) = some (.file (document a.2))) :
    ∃ n, shrink maxBytes (total ((live.map (c.seen document)).map Live.size)) t done
          (live.map (c.seen document)) =
        (t.without ((live.take n).map fun a => c.entryFile a.2),
          ⟨done.removed + (live.take n).length,
            done.freed + total ((live.take n).map fun a => (document a.2).length)⟩) ∧
      total ((live.drop n).map fun a => (document a.2).length) ≤ maxBytes ∧
      ∀ m < n, maxBytes < total ((live.drop m).map fun a => (document a.2).length) := by
  induction live generalizing t done with
  | nil => exact ⟨0, by simp [shrink, total], by simp [total], nofun⟩
  | cons a live ih =>
    rw [List.map_cons, List.nodup_cons] at hnodup
    rw [List.forall_mem_cons] at hnode
    have hsizes : ∀ l : List (Instant × String),
        (l.map (c.seen document)).map Live.size = l.map fun a => (document a.2).length := by
      intro l
      rw [List.map_map]
      rfl
    rw [List.map_cons, shrink, ← List.map_cons, hsizes]
    by_cases hfits : total ((a :: live).map fun a => (document a.2).length) ≤ maxBytes
    · rw [if_pos hfits]
      exact ⟨0, by simp [total], by simpa using hfits, nofun⟩
    · have hrest : ∀ b ∈ live, (t.unset (c.entryFile a.2)).node? (c.entryFile b.2) =
          some (.file (document b.2)) := by
        intro b hb
        rw [node?_unset_entryFile (ne_of_mem_of_not_mem (List.mem_map_of_mem hb) hnodup.1)]
        exact hnode.2 b hb
      obtain ⟨n, hshrunk, hn, hmin⟩ := ih hnodup.2 _ hrest
      have hremoved : discard t done (c.seen document a).path (c.seen document a).size =
          some (t.unset (c.entryFile a.2),
            ⟨done.removed + 1, done.freed + (document a.2).length⟩) :=
        removeFile_entryFile hnode.1 done
      have hless : total ((a :: live).map fun a => (document a.2).length) - (c.seen document a).size
          = total ((live.map (c.seen document)).map Live.size) := by
        rw [hsizes, List.map_cons, total]
        exact Nat.add_sub_cancel_left _ _
      rw [if_neg hfits, hremoved]
      simp only
      rw [hless, hshrunk]
      -- The oldest goes, and of the others as many as would go without it.
      refine ⟨n + 1, ?_, hn, fun m hm => ?_⟩
      · simp [FileTree.without_unset, total, Nat.add_assoc, Nat.add_comm 1]
      · cases m with
        | zero => exact Nat.lt_of_not_le hfits
        | succ m => exact hmin m (by omega)

/-! ## The whole collection

The two passes as one: the files that are swept are those of the dead and of the front of the live,
and all other files are as they were. -/

/-- The keys whose files go. -/
def swept (dead : List String) (live : List (Instant × String)) (n : Nat) : List String :=
  dead ++ (live.take n).map Prod.snd

/-- The keys whose files stay. -/
def kept (live : List (Instant × String)) (n : Nat) : List String := (live.drop n).map Prod.snd

theorem swept_append_kept {dead : List String} {live : List (Instant × String)} {n : Nat} :
    swept dead live n ++ kept live n = dead ++ live.map Prod.snd := by
  rw [swept, kept, List.append_assoc, ← List.map_append, List.take_append_drop]

section Swept

variable {dead : List String} {live : List (Instant × String)} {n : Nat}
  (hnodup : (swept dead live n ++ kept live n).Nodup)
include hnodup

theorem entryFile_not_mem_swept (hkept : key ∈ kept live n) :
    c.entryFile key ∉ (swept dead live n).map c.entryFile := by
  intro hmem
  obtain ⟨other, hother, heq⟩ := List.mem_map.mp hmem
  rw [entryFile_inj.mp heq] at hother
  exact (List.nodup_append.mp hnodup).2.2 _ hother _ hkept rfl

/-- Of the files of all keys those stay that are at no place that is swept. -/
theorem filter_not_mem_swept {document : String → Bytes} :
    ((swept dead live n ++ kept live n).map fun key => (c.entryFile key, document key)).filter
        (fun f => f.1 ∉ (swept dead live n).map c.entryFile) =
      (kept live n).map fun key => (c.entryFile key, document key) := by
  rw [List.map_append, List.filter_append, List.filter_eq_nil_iff.mpr, List.filter_eq_self.mpr,
    List.nil_append]
  · intro f hf
    obtain ⟨key, hkey, rfl⟩ := List.mem_map.mp hf
    simpa using entryFile_not_mem_swept (c := c) hnodup hkey
  · intro f hf
    obtain ⟨key, hkey, rfl⟩ := List.mem_map.mp hf
    simpa using ⟨key, hkey, rfl⟩

end Swept

/-- How a collection splits the keys that it lists: the dead, and the live by age, of which the first
`n` go as well because without them, and not before, the rest fits. -/
structure Split (c : DiskCache) (t : FileTree) (now : Instant) (keys dead : List String)
    (live : List (Instant × String)) (n : Nat) : Prop where
  keys : (dead ++ live.map Prod.snd).Perm keys
  notLive : ∀ key ∈ dead, Entry.liveSince? c.lifetime now (c.document t key) = none
  since : ∀ a ∈ live, Entry.liveSince? c.lifetime now (c.document t a.2) = some a.1
  sorted : live.Pairwise Older
  fits : total ((live.drop n).map fun a => (c.document t a.2).length) ≤ c.maxBytes
  shortest : ∀ m < n, c.maxBytes < total ((live.drop m).map fun a => (c.document t a.2).length)

/-- **A collection takes the swept files away** and nothing else, and counts them. Other files than
those of the listed keys do not matter. -/
theorem exists_split {keys : List String} (hkeys : c.keys t = .ok keys)
    (hsorted : keys.Pairwise (· < ·)) (hall : ∀ key ∈ keys, isKey key = true)
    (hnode : ∀ key ∈ keys, t.node? (c.entryFile key) = some (.file (c.document t key)))
    (now : Instant) :
    ∃ dead live n, c.Split t now keys dead live n ∧ c.collect t now =
      (.ok ⟨(swept dead live n).length,
          total ((swept dead live n).map fun key => (c.document t key).length)⟩,
        t.without ((swept dead live n).map c.entryFile)) := by
  have hnodup : keys.Nodup := hsorted.imp ne_of_lt
  obtain ⟨live, hage, hperm, holder⟩ :=
    @exists_byAge c (c.document t) (c.liveKeys now (c.document t) keys) (pairwise_liveKeys hsorted)
  have hsplit : (c.deadKeys now (c.document t) keys ++ live.map Prod.snd).Perm keys :=
    ((hperm.map _).append_left _).trans deadKeys_append_liveKeys
  obtain ⟨-, hlive, hapart⟩ := List.nodup_append.mp (hsplit.nodup_iff.mpr hnodup)
  -- The second pass finds the live files where they were: the first took the files of other keys.
  have hafter : ∀ a ∈ live, (t.without ((c.deadKeys now (c.document t) keys).map c.entryFile)).node?
      (c.entryFile a.2) = some (.file (c.document t a.2)) := by
    intro a ha
    have hmem : a.2 ∈ live.map Prod.snd := List.mem_map_of_mem ha
    rw [FileTree.node?_without, if_neg]
    · exact hnode _ (hsplit.mem_iff.mp (List.mem_append_right _ hmem))
    · rintro ⟨hdead, -⟩
      obtain ⟨key, hkey, heq⟩ := List.mem_map.mp hdead
      exact hapart _ hkey _ hmem (entryFile_inj.mp heq)
  obtain ⟨n, hshrunk, hfits, hshortest⟩ := @shrink_eq c (c.document t) live c.maxBytes hlive _
    ⟨(c.deadKeys now (c.document t) keys).length,
      total ((c.deadKeys now (c.document t) keys).map fun key => (c.document t key).length)⟩ hafter
  refine ⟨c.deadKeys now (c.document t) keys, live, n, ?_, ?_⟩
  · exact ⟨hsplit, fun key => liveSince?_of_mem_deadKeys,
      fun a ha => liveSince?_of_mem_liveKeys (hperm.mem_iff.mp ha), holder, hfits, hshortest⟩
  · rw [collect, hkeys]
    simp only [siftAll_eq (p := ⟨t, ⟨0, 0⟩, []⟩) hnodup hall hnode, List.append_nil,
      List.reverse_reverse, hage, Nat.zero_add, hshrunk]
    simp [swept, FileTree.without_append, Function.comp_def]

/-- The same where there are no other files than those of keys. -/
structure Sweep (c : DiskCache) (t : FileTree) (now : Instant) (dead : List String)
    (live : List (Instant × String)) (n : Nat) : Prop
    extends Split c t now (dead ++ live.map Prod.snd) dead live n where
  isKey : ∀ key ∈ dead ++ live.map Prod.snd, isKey key = true
  files : (t.filesBelow c.base).Perm
    ((dead ++ live.map Prod.snd).map fun key => (c.entryFile key, c.document t key))

theorem node?_entryFile {document : String → Bytes} {keys : List String} (ht : t.WellFormed)
    (hfiles : (t.filesBelow c.base).Perm (keys.map fun key => (c.entryFile key, document key)))
    (hkey : key ∈ keys) : t.node? (c.entryFile key) = some (.file (document key)) :=
  (ht.mem_filesBelow_iff.mp (hfiles.mem_iff.mpr (List.mem_map_of_mem hkey))).2

theorem exists_sweep (ht : t.WellFormed) (honly : c.OnlyEntries t) (now : Instant) :
    ∃ dead live n, c.Sweep t now dead live n ∧ c.collect t now =
      (.ok ⟨(swept dead live n).length,
          total ((swept dead live n).map fun key => (c.document t key).length)⟩,
        t.without ((swept dead live n).map c.entryFile)) := by
  obtain ⟨keys, hkeys, hsorted, hall, hfiles⟩ := exists_keys ht honly
  obtain ⟨dead, live, n, hsplit, hcollect⟩ :=
    exists_split hkeys hsorted hall (fun key hkey => node?_entryFile ht hfiles hkey) now
  exact ⟨dead, live, n, ⟨{ hsplit with keys := .refl _ },
    fun key hkey => hall key (hsplit.keys.mem_iff.mp hkey), hfiles.trans (hsplit.keys.symm.map _)⟩,
    hcollect⟩

namespace Sweep

variable {dead : List String} {live : List (Instant × String)} {n : Nat}

theorem files_append (hs : c.Sweep t now dead live n) : (t.filesBelow c.base).Perm
    ((swept dead live n ++ kept live n).map fun key => (c.entryFile key, c.document t key)) := by
  rw [swept_append_kept]
  exact hs.files

theorem nodup (hs : c.Sweep t now dead live n) (ht : t.WellFormed) :
    (swept dead live n ++ kept live n).Nodup := by
  have hnodup := (hs.files_append.map Prod.fst).nodup_iff.mp ht.nodup_filesBelow
  rw [List.map_map] at hnodup
  exact List.Nodup.of_map _ hnodup

/-- A file that stays is at no place that is swept. -/
theorem not_mem_swept (hs : c.Sweep t now dead live n) (ht : t.WellFormed)
    (hkept : key ∈ kept live n) : c.entryFile key ∉ (swept dead live n).map c.entryFile :=
  entryFile_not_mem_swept (hs.nodup ht) hkept

theorem node?_kept (hs : c.Sweep t now dead live n) (ht : t.WellFormed)
    (hkept : key ∈ kept live n) :
    (t.without ((swept dead live n).map c.entryFile)).node? (c.entryFile key) =
      t.node? (c.entryFile key) := by
  rw [FileTree.node?_without, if_neg fun h => hs.not_mem_swept ht hkept h.1]

theorem files_kept (hs : c.Sweep t now dead live n) (ht : t.WellFormed) :
    ((t.without ((swept dead live n).map c.entryFile)).filesBelow c.base).Perm
      ((kept live n).map fun key => (c.entryFile key, c.document t key)) := by
  rw [FileTree.filesBelow_without, ← filter_not_mem_swept (hs.nodup ht)]
  exact hs.files_append.filter _

/-- What is there of a swept cache is what was there of the keys that stay. -/
theorem files_iff (hs : c.Sweep t now dead live n) (ht : t.WellFormed) {path : Path}
    {content : Bytes} :
    (path, content) ∈ (t.without ((swept dead live n).map c.entryFile)).filesBelow c.base ↔
      (path, content) ∈ t.filesBelow c.base ∧ ∃ key ∈ kept live n, c.entryFile key = path := by
  rw [(hs.files_kept ht).mem_iff, hs.files_append.mem_iff]
  constructor
  · intro hmem
    obtain ⟨key, hkey, heq⟩ := List.mem_map.mp hmem
    rw [Prod.mk.injEq] at heq
    exact ⟨List.mem_map.mpr ⟨key, List.mem_append_right _ hkey, Prod.ext heq.1 heq.2⟩,
      key, hkey, heq.1⟩
  · rintro ⟨hmem, key, hkey, hpath⟩
    obtain ⟨other, -, heq⟩ := List.mem_map.mp hmem
    rw [Prod.mk.injEq, ← hpath, entryFile_inj] at heq
    obtain ⟨rfl, hcontent⟩ := heq
    exact List.mem_map.mpr ⟨other, hkey, Prod.ext hpath hcontent⟩

theorem wellFormed (hs : c.Sweep t now dead live n) (ht : t.WellFormed) :
    (t.without ((swept dead live n).map c.entryFile)).WellFormed := by
  refine ht.without fun path hpath => ?_
  obtain ⟨key, hkey, rfl⟩ := List.mem_map.mp hpath
  have hmem := List.mem_append_left (kept live n) hkey
  rw [node?_entryFile ht hs.files_append hmem]
  nofun

theorem onlyEntries (hs : c.Sweep t now dead live n) (ht : t.WellFormed) (honly : c.OnlyEntries t) :
    c.OnlyEntries (t.without ((swept dead live n).map c.entryFile)) :=
  fun _ hf => honly _ ((hs.files_iff ht).mp hf).1

/-- The live entries are those of the files. -/
theorem mem_live_iff (hs : c.Sweep t now dead live n) {createdAt : Instant} :
    (createdAt, key) ∈ live ↔ ∃ content, (c.entryFile key, content) ∈ t.filesBelow c.base ∧
      Entry.liveSince? c.lifetime now content = some createdAt := by
  constructor
  · intro hmem
    have hkey : key ∈ dead ++ live.map Prod.snd :=
      List.mem_append_right _ (List.mem_map_of_mem hmem)
    have hsince := hs.since (createdAt, key) hmem
    exact ⟨c.document t key, hs.files.mem_iff.mpr (List.mem_map.mpr ⟨key, hkey, rfl⟩), hsince⟩
  · rintro ⟨content, hfile, hsince⟩
    obtain ⟨other, hother, heq⟩ := List.mem_map.mp (hs.files.mem_iff.mp hfile)
    rw [Prod.mk.injEq, entryFile_inj] at heq
    obtain ⟨rfl, rfl⟩ := heq
    rcases List.mem_append.mp hother with hdead | hlive
    · rw [hs.notLive _ hdead] at hsince
      cases hsince
    · obtain ⟨⟨i, _⟩, hmem, rfl⟩ := List.mem_map.mp hlive
      have hi := hs.since _ hmem
      rw [hsince] at hi
      cases hi
      exact hmem

/-- **After a collection there is nothing to collect.** None of the entries that were kept is dead
at the same time, and together they fit, so both passes leave them. -/
theorem again (hs : c.Sweep t now dead live n) (ht : t.WellFormed) (honly : c.OnlyEntries t) :
    c.collect (t.without ((swept dead live n).map c.entryFile)) now =
      (.ok ⟨0, 0⟩, t.without ((swept dead live n).map c.entryFile)) := by
  obtain ⟨dead', live', n', hs', hcollect⟩ :=
    exists_sweep (hs.wellFormed ht) (hs.onlyEntries ht honly) now
  -- The entries of the second collection are those that the first has kept.
  have hperm := hs'.files.symm.trans (hs.files_kept ht)
  -- None of them is dead at the same time,
  have hdead : dead' = [] := by
    rw [List.eq_nil_iff_forall_not_mem]
    intro key hkey
    obtain ⟨other, hother, heq⟩ := List.mem_map.mp
      (hperm.mem_iff.mp (List.mem_map.mpr ⟨key, List.mem_append_left _ hkey, rfl⟩))
    obtain ⟨a, ha, rfl⟩ := List.mem_map.mp hother
    rw [Prod.mk.injEq] at heq
    have hnone := hs'.notLive key hkey
    rw [← heq.2, hs.since a (List.mem_of_mem_drop ha)] at hnone
    cases hnone
  -- and together they fit.
  have hn : n' = 0 := by
    by_contra hne
    have hmore := hs'.shortest 0 (Nat.pos_of_ne_zero hne)
    have hsizes := total_perm (hperm.map fun f => f.2.length)
    have hfits := hs.fits
    simp only [kept, List.map_map, List.map_append, total_append, Function.comp_def] at hsizes
    rw [← hsizes] at hfits
    rw [List.drop_zero] at hmore
    omega
  rw [hcollect, hdead, hn]
  simp [swept, total]

end Sweep

/-- `live` is the live entries by age, and the first `n` are the fewest without which the others
fit. -/
structure Trimmed (c : DiskCache) (t : FileTree) (now : Instant) (live : List (Instant × String))
    (n : Nat) : Prop where
  mem : ∀ createdAt key, (createdAt, key) ∈ live ↔
    ∃ content, (c.entryFile key, content) ∈ t.filesBelow c.base ∧
      Entry.liveSince? c.lifetime now content = some createdAt
  sorted : live.Pairwise Older
  fits : total ((live.drop n).map fun a => (c.document t a.2).length) ≤ c.maxBytes
  shortest : ∀ m < n, c.maxBytes < total ((live.drop m).map fun a => (c.document t a.2).length)

/-- What is so after a collection that kept some keys. -/
structure Collects (c : DiskCache) (t : FileTree) (now : Instant) (kept : List String)
    (done : Collected) (t' : FileTree) : Prop where
  /-- The files of these keys are left as they were, and no others. -/
  files : ∀ path content, (path, content) ∈ t'.filesBelow c.base ↔
    (path, content) ∈ t.filesBelow c.base ∧ ∃ key ∈ kept, c.entryFile key = path
  gets : ∀ key ∈ kept, ∀ later, c.get t' later key = c.get t later key
  elsewhere : ∀ path, ¬ c.base <+: path → t'.node? path = t.node? path
  removed : (t.filesBelow c.base).length = (t'.filesBelow c.base).length + done.removed
  freed : ∃ size, c.totalSize t' = .ok size ∧ c.totalSize t = .ok (size + done.freed)
  again : c.collect t' now = (.ok ⟨0, 0⟩, t')

/-- **Collection is exact.** All files that hold no live entry go, and of the live ones the oldest,
as few of them as leave room for the others. Those are read as before, what is counted was taken
away, and a second collection finds nothing to do. -/
theorem collect_exact (ht : t.WellFormed) (honly : c.OnlyEntries t) (now : Instant) :
    ∃ live n done t', c.collect t now = (.ok done, t') ∧ c.Trimmed t now live n ∧
      c.Collects t now (kept live n) done t' := by
  obtain ⟨dead, live, n, hs, hcollect⟩ := exists_sweep ht honly now
  refine ⟨live, n, _, _, hcollect, ⟨fun _ _ => hs.mem_live_iff, hs.sorted, hs.fits, hs.shortest⟩,
    ⟨fun _ _ => hs.files_iff ht, fun key hkey later => get_congr (hs.node?_kept ht hkey) later,
      fun path hpath => ?_, ?_, ?_, hs.again ht honly⟩⟩
  · rw [FileTree.node?_without, if_neg]
    rintro ⟨hmem, -⟩
    obtain ⟨key, -, rfl⟩ := List.mem_map.mp hmem
    exact hpath base_prefix_entryFile
  · rw [hs.files_append.length_eq, (hs.files_kept ht).length_eq, List.length_map, List.length_map,
      List.length_append, Nat.add_comm]
  · refine ⟨_, totalSize_eq (hs.wellFormed ht) (hs.onlyEntries ht honly) (hs.files_kept ht), ?_⟩
    rw [totalSize_eq ht honly hs.files_append, List.map_append, total_append, Nat.add_comm]

/-! ### A live entry, a broken file and an expired entry -/

def shed : DiskCache := ⟨["shed"], 3600, 100⟩

def shedKey (digit : Char) : String := String.ofList (List.replicate 64 digit)

/-- The document of an entry that was made some seconds into a day. -/
def shedDocument (second : Nat) : Bytes :=
  Entry.document ⟨"count", ⟨1767225600 + second, 0⟩, [("n", .int second)]⟩

def shedFiles : List (Char × Bytes) :=
  [('a', shedDocument 5000), ('b', Text.bytes "no entry"), ('c', shedDocument 0)]

def shedTree : FileTree :=
  ⟨(["shed"], .directory) ::
    (shedFiles.map fun f => (shed.shard (shedKey f.1), .directory)) ++
    shedFiles.map fun f => (shed.entryFile (shedKey f.1), .file f.2)⟩

/-- Of the three files only the first holds a live entry. -/
theorem collect_exact_shed : shedTree.WellFormed ∧ shed.OnlyEntries shedTree ∧
    (∃ live n done t', shed.collect shedTree ⟨1767230700, 0⟩ = (.ok done, t') ∧
      shed.Trimmed shedTree ⟨1767230700, 0⟩ live n ∧
      shed.Collects shedTree ⟨1767230700, 0⟩ (kept live n) done t') ∧
    (shedFiles.map fun f => (Entry.liveSince? shed.lifetime ⟨1767230700, 0⟩ f.2).isSome) =
      [true, false, false] := by
  have ht : shedTree.WellFormed := by
    refine ⟨by decide +kernel, by decide +kernel, by decide +kernel⟩
  have honly : shed.OnlyEntries shedTree := by
    intro f hf
    have hkeys : ∀ g ∈ shedFiles, isKey (shedKey g.1) = true := by decide +kernel
    have hpaths : (shedTree.filesBelow shed.base).map Prod.fst =
        shedFiles.map fun g => shed.entryFile (shedKey g.1) := by decide +kernel
    have hpath := List.mem_map_of_mem hf (f := Prod.fst)
    rw [hpaths] at hpath
    obtain ⟨g, hg, hpath⟩ := List.mem_map.mp hpath
    exact ⟨_, entryPath_ok_iff.mpr ⟨hkeys g hg, hpath⟩⟩
  exact ⟨ht, honly, collect_exact ht honly _, by decide +kernel⟩

end DiskCache

end CachedRun
