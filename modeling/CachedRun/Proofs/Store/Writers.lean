import CachedRun.Proofs.Store.Documents

/-!
# Writers — entries appear at once

Several calls of `put` may be under way on one cache, and a call may stop for good wherever it is. A
call takes the steps of `Putting`, and its document comes to its temporary file piece by piece. A
`Crew` is some calls and the files that they share; a schedule says whose turn it is and how many
bytes are written in it. `run_alone` says that a call which is not disturbed is `put`.

> **an entry file is never seen half-written**: it is as it was before the calls, or it holds the
> whole document of the call that renamed last.

That is `run_atomic`, for every schedule, and since a schedule may end anywhere, for every moment.
It rests on the names. Temporary files are apart from each other, so a call finds in its own what it
has written there (`Sound.temporaries`), and no temporary file is an entry file or is taken for one
(`listedKey?_temporaryPath`).
-/

set_option autoImplicit false

namespace CachedRun.DiskCache

variable {c : DiskCache} {t t' : FileTree} {key unique : String}

/-! ## One call

A call is a machine with six stages. It does with the files what `put` does, one step at a time,
and between two steps the files may become others. -/

/-- A call of `put`: what it stores under which key, and the text that no other call has. -/
structure Writer where
  key : String
  unique : String
  entry : Entry

/-- How far a call has come. -/
inductive Stage where
  | called
  /-- The directory of the entry is there. -/
  | placed
  /-- The temporary file holds so many bytes of the document. -/
  | written (size : Nat)
  | stored
  /-- The temporary file could not be renamed and has to be removed. -/
  | refused
  | failed
  deriving Repr, DecidableEq

namespace Writer

variable {w : Writer} {stage next : Stage} {bytes : Nat}

/-- The temporary file of a call. -/
def temporary (w : Writer) (c : DiskCache) : Path := c.temporaryPath w.key w.unique

/-- Writes the beginning of the document. -/
def write (c : DiskCache) (w : Writer) (size : Nat) (t : FileTree) : Stage × FileTree :=
  match Putting.step c w.key w.unique (w.entry.document.take size) t .writeTemporary with
  | .ok t => (.written size, t)
  | .error (_, t) => (.failed, t)

/-- The next step of a call, unless it is over. A step that writes adds at most so many bytes. -/
def advance (c : DiskCache) (w : Writer) (bytes : Nat) (t : FileTree) :
    Stage → Option (Stage × FileTree)
  | .called =>
    match Putting.step c w.key w.unique w.entry.document t .makeShard with
    | .ok t => some (.placed, t)
    | .error (_, t) => some (.failed, t)
  | .placed => some (w.write c bytes t)
  | .written size =>
    if size < w.entry.document.length then some (w.write c (size + bytes) t)
    else match Putting.step c w.key w.unique w.entry.document t .rename with
      | .ok t => some (.stored, t)
      | .error _ => some (.refused, t)
  | .refused =>
    match t.removeFile (w.temporary c) with
    | .ok t => some (.failed, t)
    | .error _ => some (.failed, t)
  | .stored | .failed => none

/-- What a step of a call does to the files, by the stages before and after it. -/
inductive Effect (c : DiskCache) (w : Writer) (t t' : FileTree) : Stage → Stage → Prop
  | refuse {stage next : Stage} (hsame : t' = t) (hnext : next = .refused ∨ next = .failed) :
      Effect c w t t' stage next
  | place (hfree : ∀ content, t.node? (c.shard w.key) ≠ some (.file content))
      (hnode : ∀ path, t'.node? path =
        if path = c.shard w.key then some .directory else t.node? path) :
      Effect c w t t' .called .placed
  | write {stage : Stage} {size : Nat} (hnode : ∀ path, t'.node? path =
        if path = w.temporary c then some (.file (w.entry.document.take size))
        else t.node? path) :
      Effect c w t t' stage (.written size)
  | store {size : Nat} {content : Bytes} (hsize : w.entry.document.length ≤ size)
      (hsource : t.node? (w.temporary c) = some (.file content))
      (hnode : ∀ path, t'.node? path =
        if path = c.entryFile w.key then some (.file content)
        else if path = w.temporary c then none
        else t.node? path) :
      Effect c w t t' (.written size) .stored
  | clear (hnode : ∀ path, t'.node? path =
        if path = w.temporary c then none else t.node? path) :
      Effect c w t t' .refused .failed

theorem write_effect {size : Nat} (ht : t.WellFormed)
    (h : w.write c size t = (next, t')) : t'.WellFormed ∧ Effect c w t t' stage next := by
  unfold write Putting.step at h
  cases hwritten : t.write (c.temporaryPath w.key w.unique) (w.entry.document.take size) with
  | error flaw =>
    rw [hwritten] at h
    cases h
    exact ⟨ht, .refuse rfl (.inr rfl)⟩
  | ok t₁ =>
    rw [hwritten] at h
    cases h
    obtain ⟨hroom, rfl⟩ := FileTree.write_ok_iff.mp hwritten
    obtain ⟨hfree, hparent⟩ := FileTree.obstacle?_eq_none_iff.mp hroom
    have hroot := FileTree.ne_root_of_obstacle? hroom
    exact ⟨ht.set hroot hparent fun hnode => absurd hnode hfree,
      .write fun path => FileTree.node?_set hroot⟩

/-- **One step** of a call under a key has one of these effects. By its stage: the step does its
part of the tree, or what it needs is in its way and the call is refused or fails with the tree as
it was. -/
theorem advance_effect (ht : t.WellFormed) (hbase : t.node? c.base = some .directory)
    (hkey : isKey w.key = true) (h : w.advance c bytes t stage = some (next, t')) :
    t'.WellFormed ∧ Effect c w t t' stage next := by
  cases stage with
  | called =>
    unfold advance Putting.step at h
    cases hmade : t.createDirectories (c.shard w.key) with
    | error flaw =>
      rw [hmade] at h
      cases h
      exact ⟨ht, .refuse rfl (.inr rfl)⟩
    | ok t₁ =>
      rw [hmade] at h
      cases h
      have hfree : ∀ content, t.node? (c.shard w.key) ≠ some (.file content) := by
        intro content hnode
        rw [shard] at hmade hnode
        rw [ht.createDirectories_append hbase, FileTree.createDirectoriesIn, hnode] at hmade
        cases hmade
      obtain ⟨t₂, hmade', hwell, hnode⟩ := ht.createDirectories_child hbase hfree
      rw [shard] at hmade
      rw [hmade] at hmade'
      cases hmade'
      exact ⟨hwell, .place hfree hnode⟩
  | placed =>
    rw [advance, Option.some.injEq] at h
    exact write_effect ht h
  | written size =>
    rw [advance] at h
    split at h
    · rw [Option.some.injEq] at h
      exact write_effect ht h
    · rename_i hsize
      unfold Putting.step at h
      cases hrenamed : t.rename (c.temporaryPath w.key w.unique)
          (c.shard w.key ++ [w.key ++ ".json"]) with
      | error flaw =>
        rw [hrenamed] at h
        cases h
        exact ⟨ht, .refuse rfl (.inl rfl)⟩
      | ok t₁ =>
        rw [hrenamed] at h
        cases h
        obtain ⟨content, hsource, hroom, -⟩ := FileTree.rename_ok_iff.mp hrenamed
        -- The temporary file is in nobody's way but its own.
        have hne : c.temporaryPath w.key w.unique ≠ c.entryFile w.key :=
          temporaryPath_ne_entryFile hkey hkey
        obtain ⟨hfree, hparent⟩ := FileTree.obstacle?_eq_none_iff.mp hroom
        rw [FileTree.node?_unset, if_neg fun h => hne h.1.symm] at hfree
        rw [List.dropLast_concat, FileTree.node?_unset,
          if_neg fun h => temporaryPath_ne_shard h.1.symm] at hparent
        obtain ⟨t₂, hrenamed', hwell, hnode⟩ := ht.rename (c.entryFile w.key) hsource hne hfree
          (by rwa [dropLast_entryFile])
        rw [entryFile, hrenamed] at hrenamed'
        cases hrenamed'
        exact ⟨hwell, .store (Nat.le_of_not_lt hsize) hsource hnode⟩
  | refused =>
    rw [advance] at h
    cases hremoved : t.removeFile (w.temporary c) with
    | error flaw =>
      rw [hremoved] at h
      cases h
      exact ⟨ht, .refuse rfl (.inr rfl)⟩
    | ok t₁ =>
      rw [hremoved] at h
      cases h
      obtain ⟨⟨content, hnode⟩, -⟩ := FileTree.removeFile_ok_iff.mp hremoved
      obtain ⟨t₂, hremoved', hwell, hafter⟩ := ht.removeFile hnode
      rw [hremoved] at hremoved'
      cases hremoved'
      exact ⟨hwell, .clear hafter⟩
  | stored | failed =>
    rw [advance] at h
    cases h

namespace Effect

variable {path : Path} (h : Effect c w t t' stage next)
include h

theorem node?_elsewhere (hshard : path ≠ c.shard w.key) (htemporary : path ≠ w.temporary c)
    (hentry : path ≠ c.entryFile w.key) : t'.node? path = t.node? path := by
  cases h with
  | refuse hsame => rw [hsame]
  | place _ hnode => rw [hnode, if_neg hshard]
  | write hnode | clear hnode => rw [hnode, if_neg htemporary]
  | store _ _ hnode => rw [hnode, if_neg hentry, if_neg htemporary]

theorem node?_base : t'.node? c.base = t.node? c.base :=
  h.node?_elsewhere shard_ne_base.symm temporaryPath_ne_base.symm entryFile_ne_base.symm

/-- An entry file changes only when its call is through. -/
theorem node?_entryFile (hw : isKey w.key = true) (hkey : isKey key = true)
    (hother : next = .stored → key ≠ w.key) :
    t'.node? (c.entryFile key) = t.node? (c.entryFile key) := by
  have htemporary : c.entryFile key ≠ w.temporary c := (temporaryPath_ne_entryFile hw hkey).symm
  cases h with
  | refuse hsame => rw [hsame]
  | place _ hnode => rw [hnode, if_neg entryFile_ne_shard]
  | write hnode | clear hnode => rw [hnode, if_neg htemporary]
  | store _ _ hnode =>
    rw [hnode, if_neg fun heq => hother rfl (entryFile_inj.mp heq), if_neg htemporary]

theorem file?_elsewhere (htemporary : path ≠ w.temporary c) (hentry : path ≠ c.entryFile w.key) :
    t'.file? path = t.file? path := by
  by_cases hshard : path = c.shard w.key
  · cases h with
    | place hfree hnode =>
      -- There is a directory now, and there was no file before.
      unfold FileTree.file?
      rw [hnode, if_pos hshard]
      split
      · rename_i hfile
        cases hfile
      · split
        · rename_i content hfile
          exact absurd (hshard ▸ hfile) (hfree content)
        · rfl
    | refuse hsame => rw [hsame]
    | write hnode | clear hnode => exact FileTree.file?_congr (by rw [hnode, if_neg htemporary])
    | store _ _ hnode =>
      exact FileTree.file?_congr (by rw [hnode, if_neg hentry, if_neg htemporary])
  · exact FileTree.file?_congr (h.node?_elsewhere hshard htemporary hentry)

end Effect

end Writer

/-! ## Names of temporary files

A temporary file lies beside the entry that it is to become, and its name begins with the same key.
That it is not taken for an entry is a matter of lengths. -/

/-- **A temporary file is not taken for an entry**: what stands before its ending is longer than a
key. -/
theorem listedKey?_temporaryPath (hkey : isKey key = true) :
    listedKey? (c.temporaryPath key unique) = none := by
  rw [listedKey?, temporaryPath, List.getLast?_concat, Option.bind_eq_bind, Option.bind_some,
    Option.bind_eq_bind, Option.bind_eq_none_iff]
  intro stem hstem
  rw [if_neg]
  intro hsize
  have hname := Text.eq_append_of_dropEnding? hstem
  rw [String.toList_append, String.toList_append, List.append_assoc] at hname
  rcases List.append_eq_append_iff.mp hname with ⟨more, hmore, hending⟩ | ⟨more, -, hending⟩
  · obtain ⟨hlength, hchars⟩ := isKey_iff.mp hkey
    -- The key alone is as long as a key may be, so the stem is the key.
    have hempty : more = [] := by
      have hkeySize := utf8ByteSize_of_all_isKeyChar hchars
      rw [utf8ByteSize_ofList] at hkeySize
      rw [hmore, utf8ByteSize_ofList, List.map_append, List.sum_append, hkeySize, hlength] at hsize
      cases more with
      | nil => rfl
      | cons a more =>
        have hpos := a.utf8Size_pos
        rw [List.map_cons, List.sum_cons] at hsize
        omega
    rw [hempty] at hending
    exact absurd (congrArg (·[1]?) hending) (by simp)
  · -- The ending is too short to hold the mark of a temporary file.
    have hlength : 5 = more.length + (5 + unique.toList.length) := by
      have hlength := congrArg List.length hending
      rwa [List.length_append, List.length_append] at hlength
    have hempty : more = [] := List.length_eq_zero_iff.mp (by omega)
    rw [hempty] at hending
    exact absurd (congrArg (·[1]?) hending) (by simp)

/-! ## Several calls

What a crew keeps is told file by file (`Sound`): temporary files hold what their calls have
written, the files of entries are those of the calls that have renamed, and everything else but the
directories is as it was. Whose turn it is does not matter, since a step has an effect on its own
files only. -/

/-- Whose turn it is, and how many bytes are written in it. -/
structure Turn where
  call : Nat
  bytes : Nat

/-- Some calls, the files that they share, and the calls that have renamed, the last one first. -/
structure Crew where
  tree : FileTree
  calls : List (Writer × Stage)
  landed : List Writer

namespace Crew

/-- The calls before their first step. -/
def start (t : FileTree) (writers : List Writer) : Crew :=
  ⟨t, writers.map fun w => (w, .called), []⟩

/-- One turn. A call that is over lets it pass. -/
def step (c : DiskCache) (s : Crew) (turn : Turn) : Crew :=
  match s.calls[turn.call]? with
  | none => s
  | some (w, stage) =>
    match w.advance c turn.bytes s.tree stage with
    | none => s
    | some (next, tree) =>
      ⟨tree, s.calls.set turn.call (w, next),
        if next = .stored then w :: s.landed else s.landed⟩

/-- A turn lets a call take a step, or nothing happens. -/
theorem step_cases (c : DiskCache) (s : Crew) (turn : Turn) : s.step c turn = s ∨
    ∃ i w stage next tree, s.calls[i]? = some (w, stage) ∧
      w.advance c turn.bytes s.tree stage = some (next, tree) ∧
      s.step c turn = ⟨tree, s.calls.set i (w, next),
        if next = .stored then w :: s.landed else s.landed⟩ := by
  unfold step
  cases hcall : s.calls[turn.call]? with
  | none => exact .inl rfl
  | some call =>
    obtain ⟨w, stage⟩ := call
    cases hstep : w.advance c turn.bytes s.tree stage with
    | none => exact .inl (by simp only [hstep])
    | some result =>
      obtain ⟨next, tree⟩ := result
      exact .inr ⟨turn.call, w, stage, next, tree, hcall, hstep, by simp only [hstep]⟩

/-- Turns one after the other. -/
def run (c : DiskCache) (s : Crew) (schedule : List Turn) : Crew := schedule.foldl (step c) s

/-- The call under a key that renamed last. -/
def last? (s : Crew) (key : String) : Option Writer := s.landed.find? fun w => w.key = key

/-- A temporary file that cannot be renamed goes. -/
theorem Putting.tree_of_refused {document : Bytes} {refused : FileTree.Flaw × FileTree}
    (h : Putting.step c key unique document t .rename = .error refused) :
    refused.2 = t.unset (c.temporaryPath key unique) := by
  rw [Putting.step] at h
  cases hrenamed : t.rename (c.temporaryPath key unique) (c.shard key ++ [key ++ ".json"]) with
  | error flaw =>
    rw [hrenamed] at h
    cases h
    rfl
  | ok t' =>
    rw [hrenamed] at h
    cases h

/-- **A call that is not disturbed is `put`**, where each turn may write the whole document. -/
theorem run_alone {entry : Entry} (t : FileTree) (hkey : isKey key = true) :
    ((start t [⟨key, unique, entry⟩]).run c
        (List.replicate 4 ⟨0, entry.document.length⟩)).tree = (c.put t unique key entry).2 := by
  have hturns : List.replicate 4 (Turn.mk 0 entry.document.length) =
      [⟨0, entry.document.length⟩, ⟨0, entry.document.length⟩, ⟨0, entry.document.length⟩,
        ⟨0, entry.document.length⟩] := rfl
  rw [put, entryPath_of_isKey hkey, hturns]
  simp only [run, List.foldl_cons, List.foldl_nil, start, List.map_cons, List.map_nil, Putting.run]
  cases hmade : Putting.step c key unique entry.document t .makeShard with
  | error refused => simp [step, Writer.advance, hmade]
  | ok t₁ =>
    cases hwritten : Putting.step c key unique entry.document t₁ .writeTemporary with
    | error refused => simp [step, Writer.advance, Writer.write, hmade, hwritten]
    | ok t₂ =>
      cases hrenamed : Putting.step c key unique entry.document t₂ .rename with
      | ok t₃ => simp [step, Writer.advance, Writer.write, hmade, hwritten, hrenamed]
      | error refused =>
        -- What could not be renamed was written before, so it is removed.
        have hnode : t₂.node? (c.temporaryPath key unique) = some (.file entry.document) := by
          obtain ⟨hroom, rfl⟩ := FileTree.write_ok_iff.mp (Result.mapError_eq_ok_iff.mp hwritten)
          rw [FileTree.node?_set (FileTree.ne_root_of_obstacle? hroom), if_pos rfl]
        have hremoved := FileTree.removeFile_ok_iff.mpr ⟨⟨_, hnode⟩, rfl⟩
        have htree := Putting.tree_of_refused hrenamed
        simp [step, Writer.advance, Writer.write, Writer.temporary, hmade, hwritten, hrenamed,
          hremoved, htree]

/-- What is known of a crew at any moment: a call that is writing finds in its temporary file what
it has written, and files that are neither temporary nor of a key are as they were. -/
structure Sound (c : DiskCache) (t : FileTree) (writers : List Writer) (s : Crew) : Prop where
  wellFormed : s.tree.WellFormed
  base : s.tree.node? c.base = some .directory
  calls : s.calls.map Prod.fst = writers
  landed : ∀ w ∈ s.landed, w ∈ writers
  temporaries : ∀ (i : Nat) (w : Writer) (size : Nat), s.calls[i]? = some (w, .written size) →
    s.tree.node? (w.temporary c) = some (.file (w.entry.document.take size))
  entries : ∀ key, isKey key = true → s.tree.node? (c.entryFile key) =
    match s.last? key with
    | none => t.node? (c.entryFile key)
    | some w => some (.file w.entry.document)
  others : ∀ path, (∀ w ∈ writers, path ≠ w.temporary c) →
    (∀ w ∈ writers, path ≠ c.entryFile w.key) → s.tree.file? path = t.file? path

variable {writers : List Writer} {s : Crew}

namespace Sound

theorem start (ht : t.WellFormed) (hbase : t.node? c.base = some .directory) :
    Sound c t writers (Crew.start t writers) where
  wellFormed := ht
  base := hbase
  calls := by
    rw [Crew.start, List.map_map]
    exact List.map_id' writers
  landed := nofun
  temporaries := by
    intro i w size hcall
    simp [Crew.start] at hcall
  entries := fun _ _ => rfl
  others := fun _ _ _ => rfl

theorem mem (hs : Sound c t writers s) {i : Nat} {w : Writer} {stage : Stage}
    (hcall : s.calls[i]? = some (w, stage)) : w ∈ writers := by
  rw [← hs.calls]
  exact List.mem_map_of_mem (f := Prod.fst) (List.mem_of_getElem? hcall)

/-- Calls have their temporary files for themselves. -/
theorem temporary_ne (hs : Sound c t writers s)
    (hnames : (writers.map (Writer.temporary · c)).Nodup) {i j : Nat} {w v : Writer}
    {stage stage' : Stage} (hi : s.calls[i]? = some (w, stage)) (hj : s.calls[j]? = some (v, stage'))
    (hne : i ≠ j) : w.temporary c ≠ v.temporary c := by
  intro heq
  have hplace {i : Nat} {w : Writer} {stage : Stage} (hi : s.calls[i]? = some (w, stage)) :
      (writers.map (Writer.temporary · c))[i]? = some (w.temporary c) := by
    rw [← hs.calls, List.map_map, List.getElem?_map, hi]
    rfl
  obtain ⟨hlt, -⟩ := List.getElem?_eq_some_iff.mp (hplace hi)
  refine hne ((List.getElem?_inj hlt hnames).mp ?_)
  rw [hplace hi, hplace hj, heq]

section Step

variable (hs : Sound c t writers s) (hkeys : ∀ w ∈ writers, isKey w.key = true)
  {i : Nat} {w : Writer} {stage next : Stage} {tree : FileTree}
  (hcall : s.calls[i]? = some (w, stage)) (heffect : w.Effect c s.tree tree stage next)
include hs hcall

theorem map_fst_set : (s.calls.set i (w, next)).map Prod.fst = writers := by
  have hwriter : (s.calls.map Prod.fst)[i]? = some w := by
    rw [List.getElem?_map, hcall]
    rfl
  obtain ⟨hlt, hget⟩ := List.getElem?_eq_some_iff.mp hwriter
  rw [List.map_set, ← hget, List.set_getElem_self, hs.calls]

include heffect

/-- A call that is through has renamed its whole document. -/
theorem node?_stored (hnext : next = .stored) :
    tree.node? (c.entryFile w.key) = some (.file w.entry.document) := by
  cases heffect with
  | refuse _ hother => rcases hother with rfl | rfl <;> cases hnext
  | place | write | clear => cases hnext
  | store hsize hsource hnode =>
    have hwritten := hs.temporaries _ _ _ hcall
    rw [hsource, List.take_of_length_le hsize] at hwritten
    rw [hnode, if_pos rfl, hwritten]

include hkeys

theorem temporaries_set (hnames : (writers.map (Writer.temporary · c)).Nodup) {j : Nat}
    {v : Writer} {size : Nat} (hv : (s.calls.set i (w, next))[j]? = some (v, .written size)) :
    tree.node? (v.temporary c) = some (.file (v.entry.document.take size)) := by
  by_cases hij : i = j
  · -- Of the stages only that of a step that writes is one of writing.
    obtain ⟨hlt, -⟩ := List.getElem?_eq_some_iff.mp hcall
    subst hij
    rw [List.getElem?_set_self hlt, Option.some.injEq, Prod.mk.injEq] at hv
    obtain ⟨rfl, rfl⟩ := hv
    cases heffect with
    | refuse _ hnext => rcases hnext with hnext | hnext <;> cases hnext
    | write hnode => rw [hnode, if_pos rfl]
  · rw [List.getElem?_set_ne hij] at hv
    have hshard : v.temporary c ≠ c.shard w.key := temporaryPath_ne_shard
    have hentry : v.temporary c ≠ c.entryFile w.key :=
      temporaryPath_ne_entryFile (hkeys v (hs.mem hv)) (hkeys w (hs.mem hcall))
    rw [heffect.node?_elsewhere hshard (hs.temporary_ne hnames hv hcall (Ne.symm hij)) hentry]
    exact hs.temporaries j v size hv

theorem entries_set (hkey : isKey key = true) : tree.node? (c.entryFile key) =
    match (if next = .stored then w :: s.landed else s.landed).find? fun w => w.key = key with
    | none => t.node? (c.entryFile key)
    | some w => some (.file w.entry.document) := by
  have hw := hkeys w (hs.mem hcall)
  by_cases hnext : next = .stored
  · rw [if_pos hnext]
    by_cases hother : w.key = key
    · rw [List.find?_cons_of_pos (by simpa using hother), ← hother]
      exact hs.node?_stored hcall heffect hnext
    · rw [List.find?_cons_of_neg (by simpa using hother),
        heffect.node?_entryFile hw hkey fun _ => Ne.symm hother]
      exact hs.entries key hkey
  · rw [if_neg hnext, heffect.node?_entryFile hw hkey fun h => absurd h hnext]
    exact hs.entries key hkey

end Step

/-- **One turn** keeps a crew sound. -/
theorem step (hs : Sound c t writers s) (hkeys : ∀ w ∈ writers, isKey w.key = true)
    (hnames : (writers.map (Writer.temporary · c)).Nodup) (turn : Turn) :
    Sound c t writers (s.step c turn) := by
  rcases step_cases c s turn with hsame | ⟨i, w, stage, next, tree, hcall, hstep, hturn⟩
  · rwa [hsame]
  -- One writer has moved, and the effect of its stage is on its own files.
  obtain ⟨hwell, heffect⟩ :=
    Writer.advance_effect hs.wellFormed hs.base (hkeys w (hs.mem hcall)) hstep
  rw [hturn]
  refine ⟨hwell, ?_, hs.map_fst_set hcall, ?_,
    fun _ _ _ hv => hs.temporaries_set hkeys hcall heffect hnames hv,
    fun _ hkey => hs.entries_set hkeys hcall heffect hkey, ?_⟩
  · rw [heffect.node?_base, hs.base]
  · intro v hv
    simp only at hv
    split at hv
    · rcases List.mem_cons.mp hv with rfl | hv
      · exact hs.mem hcall
      · exact hs.landed v hv
    · exact hs.landed v hv
  · intro path htemporary hentry
    simp only
    rw [heffect.file?_elsewhere (htemporary w (hs.mem hcall)) (hentry w (hs.mem hcall))]
    exact hs.others path htemporary hentry

/-- **Any schedule** keeps a crew sound. -/
theorem run (hs : Sound c t writers s) (hkeys : ∀ w ∈ writers, isKey w.key = true)
    (hnames : (writers.map (Writer.temporary · c)).Nodup) (schedule : List Turn) :
    Sound c t writers (s.run c schedule) := by
  induction schedule generalizing s with
  | nil => exact hs
  | cons turn schedule ih => exact ih (hs.step hkeys hnames turn)

/-- A file of a key lies where it lay before, or a call has renamed. -/
theorem file?_entryFile (hs : Sound c t writers s) (hkey : isKey key = true) :
    (∃ content, s.tree.file? (c.entryFile key) = some content) ↔
      (∃ content, t.file? (c.entryFile key) = some content) ∨ ∃ w ∈ s.landed, w.key = key := by
  have hentry := hs.entries key hkey
  cases hlast : s.last? key with
  | none =>
    rw [hlast] at hentry
    rw [FileTree.file?_congr hentry, or_iff_left]
    rintro ⟨w, hw, rfl⟩
    simpa using List.find?_eq_none.mp hlast w hw
  | some w =>
    rw [hlast] at hentry
    have hlanded : ∃ w ∈ s.landed, w.key = key :=
      ⟨w, List.mem_of_find?_eq_some hlast, by simpa using List.find?_some hlast⟩
    exact iff_of_true ⟨_, FileTree.file?_eq_some_iff.mpr hentry⟩ (.inr hlanded)

/-- A name is listed that was listed before, or whose call has renamed. Between the two there is
nothing to be listed, as a temporary file has no name that is. -/
theorem listed_iff (hs : Sound c t writers s) (hkeys : ∀ w ∈ writers, isKey w.key = true) :
    (∃ path content, c.base <+: path ∧ s.tree.file? path = some content ∧
        listedKey? path = some key) ↔
      (∃ path content, c.base <+: path ∧ t.file? path = some content ∧
        listedKey? path = some key) ∨ ∃ w ∈ s.landed, w.key = key := by
  have hname : ∀ w ∈ writers, listedKey? (w.temporary c) = none :=
    fun w hw => listedKey?_temporaryPath (hkeys w hw)
  -- A path with a listed name is the file of a call's key, or the calls leave it alone.
  have hplace : ∀ path, listedKey? path = some key →
      (∃ w ∈ writers, path = c.entryFile w.key ∧ w.key = key) ∨
        s.tree.file? path = t.file? path := by
    intro path hlisted
    by_cases hentry : ∃ w ∈ writers, path = c.entryFile w.key
    · obtain ⟨w, hw, rfl⟩ := hentry
      rw [listedKey?_entryFile (hkeys w hw), Option.some.injEq] at hlisted
      exact .inl ⟨w, hw, rfl, hlisted⟩
    · refine .inr (hs.others path (fun w hw heq => ?_) fun w hw heq => hentry ⟨w, hw, heq⟩)
      rw [heq, hname w hw] at hlisted
      cases hlisted
  constructor
  · rintro ⟨path, content, hbelow, hfile, hlisted⟩
    rcases hplace path hlisted with ⟨w, hw, rfl, rfl⟩ | hsame
    · refine ((hs.file?_entryFile (hkeys w hw)).mp ⟨content, hfile⟩).imp_left ?_
      rintro ⟨content, hbefore⟩
      exact ⟨_, content, hbelow, hbefore, hlisted⟩
    · exact .inl ⟨path, content, hbelow, hsame ▸ hfile, hlisted⟩
  · rintro (⟨path, content, hbelow, hfile, hlisted⟩ | ⟨w, hw, rfl⟩)
    · rcases hplace path hlisted with ⟨w, hw, rfl, rfl⟩ | hsame
      · obtain ⟨content, hnow⟩ := (hs.file?_entryFile (hkeys w hw)).mpr (.inl ⟨content, hfile⟩)
        exact ⟨_, content, hbelow, hnow, hlisted⟩
      · exact ⟨path, content, hbelow, hsame ▸ hfile, hlisted⟩
    · have hkey := hkeys w (hs.landed w hw)
      obtain ⟨content, hnow⟩ := (hs.file?_entryFile hkey).mpr (.inr ⟨w, hw, rfl⟩)
      exact ⟨_, content, base_prefix_entryFile, hnow, listedKey?_entryFile hkey⟩

end Sound

/-- What is seen of a crew whose calls began with the files `t`. -/
structure Atomic (c : DiskCache) (t : FileTree) (writers : List Writer) (s : Crew) : Prop where
  /-- The file of a key is as it was, or holds the whole document of the call under this key that
  renamed last. -/
  entries : ∀ key, isKey key = true → s.tree.node? (c.entryFile key) =
    match s.last? key with
    | none => t.node? (c.entryFile key)
    | some w => some (.file w.entry.document)
  /-- No temporary file is listed. -/
  unlisted : ∀ w ∈ writers, listedKey? (w.temporary c) = none
  /-- So the keys are those from before and those of the calls that have renamed. -/
  keys : ∃ before now, c.keys t = .ok before ∧ c.keys s.tree = .ok now ∧
    ∀ key, key ∈ now ↔ key ∈ before ∨ ∃ w ∈ s.landed, w.key = key

end Crew

/-- **Entries appear at once**, however calls of `put` are interleaved and wherever they stop. Their
temporary names have to be distinct, as a call could else rename what another one has written half
of. -/
theorem run_atomic {writers : List Writer} (ht : t.WellFormed)
    (hbase : t.node? c.base = some .directory) (hkeys : ∀ w ∈ writers, isKey w.key = true)
    (hnames : (writers.map (Writer.temporary · c)).Nodup) (schedule : List Turn) :
    Crew.Atomic c t writers ((Crew.start t writers).run c schedule) := by
  have hs : Crew.Sound c t writers ((Crew.start t writers).run c schedule) :=
    (Crew.Sound.start ht hbase).run hkeys hnames schedule
  obtain ⟨before, hbefore, -, hmem⟩ := exists_listed ht hbase
  obtain ⟨now, hnow, -, hmem'⟩ := exists_listed hs.wellFormed hs.base
  refine ⟨hs.entries, fun w hw => listedKey?_temporaryPath (hkeys w hw),
    before, now, hbefore, hnow, fun key => ?_⟩
  rw [hmem', hs.listed_iff hkeys, hmem]

/-! ### Three calls, two of them under one key

The first writes half of its document and is passed by the second, which stores its own. The third
stops when its document is half written. -/

def atticWriters : List Writer :=
  [⟨highKey, "1", numberEntry 1⟩, ⟨highKey, "2", numberEntry 2⟩, ⟨lowKey, "3", numberEntry 3⟩]

def atticSchedule : List Turn :=
  [⟨0, 0⟩, ⟨0, 40⟩, ⟨1, 0⟩, ⟨1, 500⟩, ⟨2, 0⟩, ⟨1, 0⟩, ⟨2, 40⟩, ⟨0, 500⟩, ⟨0, 0⟩]

/-- The first call renames last, and of the third nothing is seen. -/
theorem run_atomic_attic :
    emptyAttic.WellFormed ∧ emptyAttic.node? attic.base = some .directory ∧
    (∀ w ∈ atticWriters, isKey w.key = true) ∧
    (atticWriters.map (Writer.temporary · attic)).Nodup ∧
    Crew.Atomic attic emptyAttic atticWriters
      ((Crew.start emptyAttic atticWriters).run attic atticSchedule) ∧
    ((Crew.start emptyAttic atticWriters).run attic atticSchedule).landed.map Writer.unique =
      ["1", "2"] ∧
    ((Crew.start emptyAttic atticWriters).run attic atticSchedule).calls.map Prod.snd =
      [.stored, .stored, .written 40] := by
  have hkeys : ∀ w ∈ atticWriters, isKey w.key = true := by decide +kernel
  have hnames : (atticWriters.map (Writer.temporary · attic)).Nodup := by decide +kernel
  exact ⟨wellFormed_emptyAttic, rfl, hkeys, hnames,
    run_atomic wellFormed_emptyAttic rfl hkeys hnames atticSchedule,
    by decide +kernel, by decide +kernel⟩

end CachedRun.DiskCache
