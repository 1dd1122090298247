import CachedRun.CommandLine.Machine
import CachedRun.Proofs.Result
import CachedRun.Proofs.Store.Confinement

/-!
# Scratch — a local run stays in its directory

A local run has a directory of its own, and every path that it is given is meant below it. Paths are
texts, and a text can try to get out: by a slash at its beginning, by several of them, by a part that
leads upwards, or by all of these behind each other. **A path that is accepted leads into the
directory, wherever that lies and however its own path is written, and one that leads upwards
anywhere is refused before anything is started** (`contained`).

Where a path leads is not asked of `scratchPath` itself but of `Machine.place`, which follows a text
part by part and does go upwards. What a path says of itself is asked of its text (`LeadsUp`), where
two dots stand between slashes or at an end.
-/

set_option autoImplicit false

namespace CachedRun

open Component (IsName)

/-! ## Parts of a path -/

namespace Component

variable {piece : List Char} {part : Component} {path : String}

theorem ofPiece?_eq_parent_iff : ofPiece? piece = some .parent ↔ piece = ['.', '.'] := by
  unfold ofPiece?
  split
  · rename_i h
    rcases h with rfl | rfl <;> simp
  · split <;> simp_all

theorem ne_root_of_ofPiece? (h : ofPiece? piece = some part) : part ≠ .root := by
  unfold ofPiece? at h
  split at h
  · cases h
  · split at h <;> cases h <;> nofun

theorem isName_of_ofPiece? {name : String} (hslash : '/' ∉ piece)
    (h : ofPiece? piece = some (.name name)) : IsName name := by
  unfold ofPiece? at h
  split at h
  · cases h
  · rename_i hsays
    rw [not_or] at hsays
    split at h
    · cases h
    · rename_i hparent
      cases h
      have hne {other : List Char} (hother : piece ≠ other) :
          String.ofList piece ≠ String.ofList other := fun heq => hother (String.ofList_injective heq)
      exact ⟨by rwa [String.toList_ofList], hne hsays.1, hne hsays.2, hne hparent⟩

/-- What a path begins with, if it is not at the root. -/
theorem exists_ofText (h : path.toList.head? ≠ some '/') : ∃ start : List Component,
    ofText path = start ++ (Text.splitAt '/' path.toList).filterMap ofPiece? ∧
      (start = [] ∨ start = [.current]) := by
  simp only [ofText, if_neg h]
  split
  · exact ⟨[.current], rfl, .inr rfl⟩
  · exact ⟨[], rfl, .inl rfl⟩

end Component

namespace LocalRun

/-! ## Following a path -/

/-- Where one part of a path leads. -/
def follow (place : Path) : Component → Path
  | .root => []
  | .current => place
  | .parent => place.dropLast
  | .name name => place ++ [name]

theorem place_eq (directory : Path) (text : String) :
    CommandLine.Machine.place directory text = (Component.ofText text).foldl follow directory := by
  unfold CommandLine.Machine.place
  congr 1

/-- Parts that stay below lead there by their names. -/
theorem foldl_follow {l : List Component} (h : ∀ part ∈ l, stays part = true) (place : Path) :
    l.foldl follow place = place ++ l.filterMap Component.name? := by
  induction l generalizing place with
  | nil => simp
  | cons part l ih =>
    rw [List.forall_mem_cons] at h
    rw [List.foldl_cons, ih h.2]
    cases part with
    | root => exact absurd h.1 (by decide)
    | parent => exact absurd h.1 (by decide)
    | current => rfl
    | name name => simp [follow, Component.name?]

/-- **Joining first and following then** is following one path after the other. -/
theorem place_join {path : String} (h : path.toList.head? ≠ some '/') (directory : Path)
    (base : String) : CommandLine.Machine.place directory (Component.join base path) =
      CommandLine.Machine.place (CommandLine.Machine.place directory base) path := by
  by_cases hbase : base = ""
  · rw [hbase, Component.empty_join h]
    rfl
  · obtain ⟨start, hparts, hstart⟩ := Component.exists_ofText h
    rw [place_eq, place_eq, place_eq, Component.ofText_join_of_ne hbase h, hparts,
      List.foldl_append, List.foldl_append]
    rcases hstart with rfl | rfl <;> rfl

/-! ## A path without the slashes at its beginning -/

/-- What is taken of a path: all but the slashes at its beginning. -/
def relative (path : String) : String := String.ofList (path.toList.dropWhile (· == '/'))

/-- A part that leads upwards stands in the text of a path. -/
def LeadsUp (path : String) : Prop := ∃ before after, path.toList = before ++ (['.', '.'] ++ after) ∧
  (∀ c ∈ before.getLast?, c = '/') ∧ ∀ c ∈ after.head?, c = '/'

variable {path : String}

theorem parts_eq (path : String) : parts path = Component.ofText (relative path) := rfl

theorem head?_relative (path : String) : (relative path).toList.head? ≠ some '/' := by
  intro h
  have hstop := List.head?_dropWhile_not (· == '/') path.toList
  rw [relative, String.toList_ofList] at h
  rw [h] at hstop
  simp at hstop

theorem exists_slashes (path : String) : ∃ n,
    path.toList = List.replicate n '/' ++ (relative path).toList := by
  refine ⟨(path.toList.takeWhile (· == '/')).length, ?_⟩
  have hslashes : path.toList.takeWhile (· == '/') =
      List.replicate (path.toList.takeWhile (· == '/')).length '/' := by
    apply List.eq_replicate_of_mem
    intro c hc
    simpa using List.mem_takeWhile_imp hc
  rw [← hslashes, relative, String.toList_ofList, List.takeWhile_append_dropWhile]

theorem mem_splitAt_relative_iff {piece : List Char} (h : piece ≠ []) :
    piece ∈ Text.splitAt '/' (relative path).toList ↔ piece ∈ Text.splitAt '/' path.toList := by
  obtain ⟨n, hn⟩ := exists_slashes path
  rw [hn]
  clear hn
  induction n with
  | zero => rfl
  | succ n ih =>
    rw [List.replicate_succ, List.cons_append, Text.splitAt_cons_self, List.mem_cons, ih]
    simp [h]

theorem leadsUp_iff : LeadsUp path ↔ .parent ∈ parts path := by
  obtain ⟨start, hparts, hstart⟩ := Component.exists_ofText (head?_relative path)
  have hnot : Component.parent ∉ start := by rcases hstart with rfl | rfl <;> simp
  have hslash : '/' ∉ ['.', '.'] := by decide
  rw [parts_eq, hparts, List.mem_append, or_iff_right hnot, List.mem_filterMap]
  simp only [Component.ofPiece?_eq_parent_iff, exists_eq_right]
  rw [mem_splitAt_relative_iff (by simp), Text.mem_splitAt_iff, and_iff_right hslash]
  rfl

theorem root_not_mem_parts (path : String) : .root ∉ parts path := by
  obtain ⟨start, hparts, hstart⟩ := Component.exists_ofText (head?_relative path)
  rw [parts_eq, hparts, List.mem_append, List.mem_filterMap]
  rintro (h | ⟨piece, -, h⟩)
  · rcases hstart with rfl | rfl <;> simp at h
  · exact Component.ne_root_of_ofPiece? h rfl

theorem all_stays_iff : (parts path).all stays = true ↔ ¬ LeadsUp path := by
  rw [leadsUp_iff, List.all_eq_true]
  constructor
  · intro h hparent
    cases h _ hparent
  · intro h part hpart
    cases part with
    | root => exact absurd hpart (root_not_mem_parts path)
    | parent => exact absurd hpart h
    | current => rfl
    | name name => rfl

/-- Only a path of slashes has no parts. -/
theorem parts_eq_nil_iff : parts path = [] ↔ ∀ c ∈ path.toList, c = '/' := by
  have hslashes : (∀ c ∈ path.toList, c = '/') ↔ relative path = "" := by
    rw [← String.toList_inj, relative, String.toList_ofList, String.toList_empty,
      List.dropWhile_eq_nil_iff]
    simp
  rw [hslashes, parts_eq]
  constructor
  · intro h
    by_contra hne
    obtain ⟨c, s, hs⟩ := List.exists_cons_of_ne_nil
      (fun hnil => hne (String.toList_inj.mp hnil) : (relative path).toList ≠ [])
    obtain ⟨first, pieces, hpieces⟩ := List.exists_cons_of_ne_nil (Text.splitAt_ne_nil '/' s)
    have hhead : (c :: s).head? ≠ some '/' := hs ▸ head?_relative path
    have hc : c ≠ '/' := fun hc => hhead (congrArg some hc)
    simp only [Component.ofText, hs, if_neg hhead, Text.splitAt_cons_of_ne hc hpieces,
      List.append_eq_nil_iff, List.filterMap_eq_nil_iff] at h
    -- A first piece of one dot is a part of its own, and any other says something.
    obtain ⟨hstart, hnone⟩ := h
    split at hstart
    · cases hstart
    · rename_i hcurrent
      have hfirst := hnone (c :: first) (List.mem_cons_self ..)
      have hdot : c :: first ≠ ['.'] := fun hdot => hcurrent (by rw [hdot, List.head?_cons])
      rw [Component.ofPiece?, if_neg (by simp [hdot])] at hfirst
      split at hfirst <;> cases hfirst
  · intro h
    rw [h]
    decide

/-! ## The place of a path -/

variable {root : Path} {target : Path}

theorem scratchPath_ok_iff : scratchPath root path = .ok target ↔
    parts path ≠ [] ∧ (parts path).all stays = true ∧
      target = root ++ (parts path).filterMap Component.name? := by
  unfold scratchPath
  split
  · rename_i h
    refine iff_of_false nofun ?_
    rintro ⟨hne, hstays, -⟩
    simp [hne, hstays] at h
  · rename_i h
    rw [not_or, Bool.not_eq_true, Bool.not_eq_false'] at h
    simp [h.1, h.2, eq_comm]

theorem scratchPath_eq_error (h : ¬ ∃ target, scratchPath root path = .ok target) :
    scratchPath root path = .error (escapeFault path) := by
  unfold scratchPath at h ⊢
  split
  · rfl
  · rename_i hstays
    rw [if_neg hstays] at h
    exact absurd ⟨_, rfl⟩ h

/-- Whether a path is accepted does not depend on the directory. -/
theorem accepted_iff : (∃ target, scratchPath root path = .ok target) ↔
    ¬ LeadsUp path ∧ ∃ c ∈ path.toList, c ≠ '/' := by
  simp only [scratchPath_ok_iff, exists_and_left, exists_eq, and_true, all_stays_iff, ne_eq,
    parts_eq_nil_iff, not_forall, exists_prop]
  exact and_comm

theorem isName_of_mem_names {name : String}
    (h : name ∈ (parts path).filterMap Component.name?) : IsName name := by
  obtain ⟨part, hpart, hname⟩ := List.mem_filterMap.mp h
  obtain ⟨start, hparts, hstart⟩ := Component.exists_ofText (head?_relative path)
  cases part with
  | root => cases hname
  | current => cases hname
  | parent => cases hname
  | name text =>
    cases hname
    rw [parts_eq, hparts, List.mem_append] at hpart
    rcases hpart with hpart | hpart
    · rcases hstart with rfl | rfl <;> simp at hpart
    · obtain ⟨piece, hpiece, hsays⟩ := List.mem_filterMap.mp hpart
      exact Component.isName_of_ofPiece? (Text.not_mem_of_mem_splitAt hpiece) hsays

/-! ## Nothing is started -/

theorem writeFiles_eq_error {fault : Fault} (h : scratchPath root path = .error fault)
    {files : List (String × Bytes)} (hmem : path ∈ files.map Prod.fst) (t : FileTree) :
    ∃ fault', writeFiles root t files = .error fault' := by
  induction files generalizing t with
  | nil => cases hmem
  | cons file files ih =>
    obtain ⟨first, content⟩ := file
    rw [writeFiles]
    cases hfirst : writeFile root t first content with
    | error fault' => exact ⟨fault', rfl⟩
    | ok t' =>
      rw [List.map_cons, List.mem_cons] at hmem
      rcases hmem with rfl | hmem
      · rw [writeFile, h] at hfirst
        cases hfirst
      · exact ih hmem t'

/-- The fault of a run that starts nothing depends on the request alone. -/
theorem run_of_writeFiles_error {request : RunRequest} {fault : Fault}
    (h : writeFiles [] .empty request.inputFiles = .error fault) :
    ∃ fault', ∀ (m : Type → Type) [Monad m] (execute : Launch → FileTree → m (Outcome × FileTree))
      (millis : Nat), run execute millis request = pure (.error fault') := by
  cases hcommand : request.command with
  | nil =>
    refine ⟨.runnerFailed runnerName "empty command", ?_⟩
    intro m _ execute millis
    rw [run, hcommand]
  | cons program arguments =>
    refine ⟨fault, ?_⟩
    intro m _ execute millis
    rw [run, hcommand]
    simp only [h]

/-- What a scratch directory makes of a path. -/
structure Contains (root : Path) (path : String) : Prop where
  /-- A path that is followed from the directory leads to the place that it is given. -/
  below : ∀ target, scratchPath root path = .ok target →
    CommandLine.Machine.place root (relative path) = target ∧
      ∃ names, target = root ++ names ∧ ∀ name ∈ names, IsName name
  /-- So does one that is joined to the path of the directory, whatever that says. -/
  joined : ∀ (directory : Path) (text : String),
    CommandLine.Machine.place directory text = root →
      ∀ target, scratchPath root path = .ok target →
        CommandLine.Machine.place directory (Component.join text (relative path)) = target
  accepted : (∃ target, scratchPath root path = .ok target) ↔
    ¬ LeadsUp path ∧ ∃ c ∈ path.toList, c ≠ '/'
  refused : LeadsUp path → scratchPath root path = .error (escapeFault path)
  /-- Where an input file has a path that is refused, no program is started. -/
  unstarted : ∀ fault, scratchPath root path = .error fault →
    ∀ request : RunRequest, path ∈ request.inputFiles.map Prod.fst →
      ∃ fault', ∀ (m : Type → Type) [Monad m]
        (execute : Launch → FileTree → m (Outcome × FileTree)) (millis : Nat),
          run execute millis request = pure (.error fault')

/-- **No path leads out of a scratch directory.** A path is followed name by name, so one that is
accepted ends below the root, whatever its names are. One that goes up is refused even if it would
come back, and it is met while the files are laid out, before anything is executed. -/
theorem contained (root : Path) (path : String) : Contains root path := by
  have hbelow : ∀ target, scratchPath root path = .ok target →
      CommandLine.Machine.place root (relative path) = target := by
    intro target h
    obtain ⟨-, hstays, rfl⟩ := scratchPath_ok_iff.mp h
    rw [place_eq, ← parts_eq, foldl_follow (List.all_eq_true.mp hstays)]
  constructor
  · intro target h
    obtain ⟨-, -, htarget⟩ := scratchPath_ok_iff.mp h
    exact ⟨hbelow target h, _, htarget, fun name => isName_of_mem_names⟩
  · intro directory text hroot target h
    rw [place_join (head?_relative path), hroot]
    exact hbelow target h
  · exact accepted_iff
  · intro hup
    apply scratchPath_eq_error
    intro haccepted
    exact (accepted_iff.mp haccepted).1 hup
  · intro fault h request hmem
    -- Refusal does not depend on the directory, so it is the same below the root of the run.
    have hnone : ¬ ∃ target, scratchPath [] path = .ok target := by
      intro haccepted
      obtain ⟨target, htarget⟩ : ∃ target, scratchPath root path = .ok target :=
        accepted_iff.mpr (accepted_iff.mp haccepted)
      rw [h] at htarget
      cases htarget
    obtain ⟨fault', hwrite⟩ := writeFiles_eq_error (scratchPath_eq_error hnone) hmem .empty
    exact run_of_writeFiles_error hwrite

example : scratchPath ["tmp", "run"] "//a/./b//c.xml" = .ok ["tmp", "run", "a", "b", "c.xml"] := by
  decide

example : scratchPath ["tmp", "run"] "/a//..//b" = .error (escapeFault "/a//..//b") := by decide

end LocalRun

end CachedRun
