import CachedRun.Proofs.Store.Documents
import CachedRun.Proofs.Text.Pieces

/-!
# Confinement — no key leads out of the cache directory

A key may be any text; it comes from a command line as well as from a fingerprint. Before a path is
made of it, it is asked to be sixty-four lowercase hexadecimal digits. **So the path of a text that
passes has two parts below the base directory, both of them plain names, and a text that does not
pass touches no file** (`confined`). It stays so when the path is written as a text and taken apart
again at its slashes (`Component.ofText_join`).

The directory of a file is cut out of its key by bytes. A cut may lie beyond the end of a text or in
the middle of a character (`Text.firstBytes?`), and the check is what keeps it from there
(`slicedPath?_eq`).
-/

set_option autoImplicit false

namespace CachedRun

/-! ## Cutting by bytes -/

namespace Text

/-- The beginning of a text that has so many bytes. There is none if the text has fewer, or if a
character reaches over the cut. -/
def firstBytes? : Nat → List Char → Option (List Char)
  | 0, _ => some []
  | _ + 1, [] => none
  | n + 1, a :: s =>
    if a.utf8Size ≤ n + 1 then (firstBytes? (n + 1 - a.utf8Size) s).map (a :: ·) else none

theorem firstBytes?_eq_some_iff {n : Nat} {s pre : List Char} :
    firstBytes? n s = some pre ↔ pre <+: s ∧ (pre.map Char.utf8Size).sum = n := by
  induction s generalizing n pre with
  | nil => cases n <;> cases pre <;> simp [firstBytes?]
  | cons a s ih =>
    cases pre with
    | nil => cases n <;> simp [firstBytes?]
    | cons b pre =>
      have hpos := b.utf8Size_pos
      -- Every character has a byte at least, so the first one needs bytes to be left.
      cases n with
      | zero =>
        rw [firstBytes?, List.map_cons, List.sum_cons]
        exact iff_of_false nofun (by omega)
      | succ n =>
        rw [firstBytes?, List.cons_prefix_cons, List.map_cons, List.sum_cons]
        split
        · simp only [Option.map_eq_some_iff, ih, List.cons.injEq]
          constructor
          · rintro ⟨_, ⟨hpre, hsum⟩, rfl, rfl⟩
            exact ⟨⟨rfl, hpre⟩, by omega⟩
          · rintro ⟨⟨rfl, hpre⟩, hsum⟩
            exact ⟨pre, ⟨hpre, by omega⟩, rfl, rfl⟩
        · refine iff_of_false nofun ?_
          rintro ⟨⟨rfl, -⟩, hsum⟩
          omega

example : firstBytes? 1 ['é', 'a'] = none := by decide

end Text

/-! ## Names in a path -/

namespace Component

/-- A text that is one part of a path and leads downwards. -/
structure IsName (name : String) : Prop where
  noSlash : '/' ∉ name.toList
  ne_empty : name ≠ ""
  ne_current : name ≠ "."
  ne_parent : name ≠ ".."

/-- A text without a slash is a name if it does not begin with a dot. -/
theorem isName_of_head {a : Char} {s : List Char} (hslash : '/' ∉ a :: s) (hdot : a ≠ '.') :
    IsName (String.ofList (a :: s)) := by
  have hne {name : String} (hhead : name.toList.head? ≠ some a) :
      String.ofList (a :: s) ≠ name := by
    rintro rfl
    exact hhead (by rw [String.toList_ofList, List.head?_cons])
  have hdot' : some '.' ≠ some a := fun h => hdot (Option.some.inj h).symm
  exact ⟨by rwa [String.toList_ofList], hne nofun, hne hdot', hne hdot'⟩

namespace IsName

variable {name : String} (h : IsName name)

include h

theorem head?_ne : name.toList.head? ≠ some '/' := fun hhead =>
  h.noSlash (List.mem_of_mem_head? hhead)

theorem ofPiece? : Component.ofPiece? name.toList = some (.name name) := by
  have hne {s : List Char} (hs : name ≠ String.ofList s) : name.toList ≠ s := by
    rintro rfl
    exact hs String.ofList_toList.symm
  rw [Component.ofPiece?, if_neg (not_or.mpr ⟨hne h.ne_empty, hne h.ne_current⟩),
    if_neg (hne h.ne_parent), String.ofList_toList]

theorem parts : (Text.splitAt '/' name.toList).filterMap Component.ofPiece? = [.name name] := by
  rw [Text.splitAt_of_not_mem h.noSlash, List.filterMap_cons_some h.ofPiece?, List.filterMap_nil]

/-- A name has no other part. -/
theorem ofText : Component.ofText name = [.name name] := by
  have hcurrent : (Text.splitAt '/' name.toList).head? ≠ some ['.'] := by
    rw [Text.splitAt_of_not_mem h.noSlash]
    intro hhead
    exact h.ne_current (String.toList_inj.mp (Option.some.inj hhead))
  simp only [Component.ofText, if_neg h.head?_ne, if_neg hcurrent, h.parts, List.nil_append]

end IsName

theorem parts_nil : (Text.splitAt '/' []).filterMap ofPiece? = [] := by decide

/-- Parts before a slash and behind it. -/
theorem ofText_append_slash (s rest : List Char) : ofText (String.ofList (s ++ '/' :: rest)) =
    ofText (String.ofList (s ++ ['/'])) ++ (Text.splitAt '/' rest).filterMap ofPiece? := by
  have hfirst : (s ++ '/' :: rest).head? = (s ++ ['/']).head? := by cases s <;> rfl
  simp only [ofText, String.toList_ofList, Text.splitAt_append, hfirst,
    List.head?_append_of_ne_nil _ (Text.splitAt_ne_nil '/' s), List.filterMap_append, parts_nil,
    List.append_nil, List.append_assoc]

/-- A slash at the end says nothing. -/
theorem ofText_slash {s : List Char} (hs : s ≠ []) :
    ofText (String.ofList (s ++ ['/'])) = ofText (String.ofList s) := by
  simp only [ofText, String.toList_ofList, Text.splitAt_append, List.head?_append_of_ne_nil _ hs,
    List.head?_append_of_ne_nil _ (Text.splitAt_ne_nil '/' s), List.filterMap_append, parts_nil,
    List.append_nil]

/-- Two texts as the text of one path. A slash comes between them if there is something before it
and no slash yet, and a text that starts at the root forgets the other. -/
def join (base path : String) : String :=
  if path.toList.head? = some '/' then path
  else if base = "" ∨ base.toList.getLast? = some '/' then base ++ path
  else base ++ "/" ++ path

/-- The parts of a path come behind those of the path that it is joined to. -/
theorem ofText_join_of_ne {base path : String} (hbase : base ≠ "")
    (hpath : path.toList.head? ≠ some '/') : ofText (join base path) =
      ofText base ++ (Text.splitAt '/' path.toList).filterMap ofPiece? := by
  rw [join, if_neg hpath]
  split
  · rename_i hlast
    obtain ⟨s, hs⟩ := List.getLast?_eq_some_iff.mp (hlast.resolve_left hbase)
    have hjoined : base ++ path = String.ofList (s ++ '/' :: path.toList) := by
      rw [← String.toList_inj, String.toList_append, hs, String.toList_ofList, List.append_assoc,
        List.singleton_append]
    rw [hjoined, ofText_append_slash, ← hs, String.ofList_toList]
  · have hne : base.toList ≠ [] := fun hnil => hbase (String.toList_inj.mp hnil)
    have hjoined : base ++ "/" ++ path = String.ofList (base.toList ++ '/' :: path.toList) := by
      rw [← String.toList_inj]
      simp
    rw [hjoined, ofText_append_slash, ofText_slash hne, String.ofList_toList]

theorem empty_join {path : String} (hpath : path.toList.head? ≠ some '/') : join "" path = path := by
  rw [join, if_neg hpath, if_pos (.inl rfl), String.empty_append]

/-- **A name that is joined to a path is one part more.** -/
theorem ofText_join (base : String) {name : String} (h : IsName name) :
    ofText (join base name) = ofText base ++ [.name name] := by
  by_cases hbase : base = ""
  · rw [hbase, empty_join h.head?_ne]
    exact h.ofText
  · rw [ofText_join_of_ne hbase h.head?_ne, h.parts]

end Component

namespace DiskCache

open Component (IsName)

variable {c : DiskCache} {key other : String} {path : Path} {fault : Fault} {t : FileTree}

/-! ## Texts that are keys -/

theorem isKeyChar_iff (a : Char) : isKeyChar a = true ↔ a ∈ "0123456789abcdef".toList := by
  constructor
  · intro h
    have hcode : (48 ≤ a.toNat ∧ a.toNat ≤ 57) ∨ (97 ≤ a.toNat ∧ a.toNat ≤ 102) := by
      simpa [isKeyChar, Char.isDigit, Char.le_def, UInt32.le_iff_toNat_le] using h
    have hall : ∀ n < 103, (48 ≤ n ∧ n ≤ 57) ∨ (97 ≤ n ∧ n ≤ 102) →
        Char.ofNat n ∈ "0123456789abcdef".toList := by decide
    rw [← Char.ofNat_toNat a]
    exact hall _ (by omega) hcode
  · have hall : "0123456789abcdef".toList.all isKeyChar = true := by decide
    exact List.all_eq_true.mp hall a

theorem accepted_iff : (∃ path, c.entryPath key = .ok path) ↔
    key.toList.length = 64 ∧ ∀ a ∈ key.toList, a ∈ "0123456789abcdef".toList := by
  simp only [entryPath_ok_iff, exists_and_left, exists_eq', and_true, isKey_iff, List.all_eq_true,
    isKeyChar_iff, keyLength]

theorem isKey_of_ofRequest {registry : Registry} {configuration : Configuration}
    {environment : Key.Environment} {inputs : Inputs} {requested : List String}
    (h : Key.ofRequest registry configuration environment inputs requested = .ok key) :
    isKey key = true := by
  obtain ⟨fields, -, rfl⟩ := Result.map_eq_ok_iff.mp h
  exact isKey_fingerprint fields

/-! ## The directory of a key -/

/-- The path of the file of a key, with its directory cut out of the key by bytes. There is none if
the cut fails. -/
def slicedPath? (c : DiskCache) (key : String) : Option (Except Fault Path) :=
  if isKey key then
    (Text.firstBytes? 2 key.toList).map fun directory =>
      .ok (c.base ++ [String.ofList directory, key ++ ".json"])
  else some (.error (.cacheRead s!"invalid cache key '{key}'"))

theorem firstBytes?_of_isKey (h : isKey key = true) :
    Text.firstBytes? 2 key.toList = some (key.toList.take 2) := by
  obtain ⟨hlength, hall⟩ := isKey_iff.mp h
  have hsize := utf8ByteSize_of_all_isKeyChar (l := key.toList.take 2)
    (List.all_eq_true.mpr fun a ha => List.all_eq_true.mp hall a (List.mem_of_mem_take ha))
  rw [utf8ByteSize_ofList, List.length_take, hlength] at hsize
  exact Text.firstBytes?_eq_some_iff.mpr ⟨List.take_prefix .., hsize⟩

/-- The cut never fails. -/
theorem slicedPath?_eq (c : DiskCache) (key : String) :
    c.slicedPath? key = some (c.entryPath key) := by
  unfold slicedPath? entryPath
  split
  · rename_i h
    rw [firstBytes?_of_isKey h, Option.map_some, shard, List.append_assoc, List.singleton_append]
  · rfl

/-! ## Names made of a key -/

/-- A beginning of a key is a name, whatever follows it without a slash. -/
theorem isName_of_isKey {pre ending : List Char} (h : isKey key = true)
    (hpre : pre <+: key.toList) (hne : pre ≠ []) (hending : '/' ∉ ending) :
    IsName (String.ofList (pre ++ ending)) := by
  have hchar {a : Char} (ha : a ∈ pre) : isKeyChar a = true :=
    List.all_eq_true.mp (isKey_iff.mp h).2 a (hpre.subset ha)
  obtain ⟨a, pre, rfl⟩ := List.exists_cons_of_ne_nil hne
  rw [List.cons_append]
  refine Component.isName_of_head (fun hslash => ?_) ?_
  · rw [← List.cons_append, List.mem_append] at hslash
    rcases hslash with hslash | hslash
    · exact absurd (hchar hslash) (by decide)
    · exact hending hslash
  · rintro rfl
    exact absurd (hchar (List.mem_cons_self ..)) (by decide)

theorem isName_directory (h : isKey key = true) :
    IsName (String.ofList (key.toList.take 2)) := by
  rw [← List.append_nil (key.toList.take 2)]
  refine isName_of_isKey h (List.take_prefix ..) (fun hnil => ?_) List.not_mem_nil
  have hlength := congrArg List.length hnil
  rw [List.length_take, length_of_isKey h] at hlength
  cases hlength

theorem isName_file (h : isKey key = true) : IsName (key ++ ".json") := by
  rw [← String.ofList_toList (s := key ++ ".json"), String.toList_append]
  refine isName_of_isKey h (List.prefix_refl _) (fun hnil => ?_) (by decide)
  have hlength := length_of_isKey h
  rw [hnil] at hlength
  cases hlength

/-! ## Refusals -/

/-- What stores, asks for or removes an entry. -/
def Operation.isOnEntry : Operation → Bool
  | .put .. | .get .. | .remove _ => true
  | _ => false

theorem run_of_refused (h : c.entryPath key = .error fault) {operation : Operation}
    (hentry : operation.isOnEntry = true) (hkey : operation.key? = some key) (t : FileTree) :
    operation.run c t = (.error fault, c, t) := by
  cases operation with
  | put unique other entry =>
    cases hkey
    rw [Operation.run, put, h]
  | get now other =>
    cases hkey
    rw [Operation.run, get, h]
    rfl
  | remove other =>
    cases hkey
    rw [Operation.run, remove, h]
    rfl
  | _ => cases hentry

/-- What a cache directory makes of a text that is given as a key. -/
structure Confines (c : DiskCache) (key : String) : Prop where
  /-- The directory is cut out of the key, or the key is refused before. -/
  sliced : c.slicedPath? key = some (c.entryPath key)
  accepted : (∃ path, c.entryPath key = .ok path) ↔
    key.toList.length = 64 ∧ ∀ a ∈ key.toList, a ∈ "0123456789abcdef".toList
  /-- The path has two names more than the base, and so has its text. -/
  below : ∀ path, c.entryPath key = .ok path →
    ∃ directory file, path = c.base ++ [directory, file] ∧ IsName directory ∧ IsName file ∧
      ∀ base : String, Component.ofText (Component.join (Component.join base directory) file) =
        Component.ofText base ++ [.name directory, .name file]
  apart : ∀ other path, c.entryPath key = .ok path → c.entryPath other = .ok path → key = other
  made : ∀ registry configuration environment inputs requested,
    Key.ofRequest registry configuration environment inputs requested = .ok key →
      ∃ path, c.entryPath key = .ok path
  refused : ∀ fault, c.entryPath key = .error fault → ∀ (t : FileTree) (operation : Operation),
    operation.isOnEntry = true → operation.key? = some key →
      operation.run c t = (.error fault, c, t)

/-- **No text leads out of a cache directory.** The path of a key is cut out of it by bytes, so this
is also about where it is cut: what is accepted has one byte for each character, and no cut of it
fails. -/
theorem confined (c : DiskCache) (key : String) : c.Confines key where
  sliced := slicedPath?_eq c key
  accepted := accepted_iff
  below := by
    intro path h
    obtain ⟨hkey, rfl⟩ := entryPath_ok_iff.mp h
    have hdirectory := isName_directory hkey
    have hfile := isName_file hkey
    refine ⟨_, _, by rw [entryFile, shard, List.append_assoc, List.singleton_append], hdirectory,
      hfile, fun base => ?_⟩
    rw [Component.ofText_join _ hfile, Component.ofText_join _ hdirectory, List.append_assoc,
      List.singleton_append]
  apart := by
    intro other path h hother
    obtain ⟨-, rfl⟩ := entryPath_ok_iff.mp h
    exact entryFile_inj.mp (entryPath_ok_iff.mp hother).2.symm
  made _ _ _ _ _ h := ⟨_, entryPath_of_isKey (isKey_of_ofRequest h)⟩
  refused _ h t _ hentry hkey := run_of_refused h hentry hkey t

/-- A key has its place in the attic, and a way out of it is refused. -/
theorem confined_attic : attic.Confines lowKey ∧
    attic.entryPath lowKey = .ok ["attic", "00", lowKey ++ ".json"] ∧
    ∃ fault, attic.entryPath "../etc" = .error fault ∧
      (Operation.remove "../etc").run attic emptyAttic = (.error fault, attic, emptyAttic) := by
  have hrefused : attic.entryPath "../etc" = .error (.cacheRead "invalid cache key '../etc'") :=
    entryPath_of_not_isKey (by decide)
  exact ⟨confined attic lowKey, by decide +kernel, _, hrefused,
    (confined attic "../etc").refused _ hrefused emptyAttic _ rfl rfl⟩

end DiskCache

end CachedRun
