import CachedRun.Proofs.Convert
import CachedRun.Proofs.Store.Documents

/-!
# Stored results — which of them come back

An entry is stored as a document, and a document does not hold everything that a run can give. A
double that is not finite is written as `null`, and JSON that is nested as deep as a reader goes is
deeper still inside an entry. All other values are `isStorable`, and an entry comes back from its
document exactly if all its outputs are (`Entry.read?_document`).

So a put that succeeds is not yet a get that succeeds: `get_of_put` says when it is one.
-/

set_option autoImplicit false

namespace CachedRun

open Json (Unread)

/-! ## Documents of entries -/

/-- How deep the JSON of an output may be nested: an entry puts three containers around it. -/
def Entry.nestingLimit : Nat := Unread.depthLimit - 3

/-- A value that the document of an entry holds. -/
def Value.isStorable (v : Value) : Bool := v.isFinite && decide (v.nesting ≤ Entry.nestingLimit)

/-- An entry of a run: its outputs were collected and its time is one. -/
structure Entry.IsProper (e : Entry) : Prop where
  createdAt : e.createdAt.IsProper
  outputs : e.outputs.IsProper

namespace Entry

variable {e : Entry}

/-- **Of a written entry everything is read.** -/
theorem outline_unread (e : Entry) : outline e.toJson.unread = e.toJson.unread := by
  have hkeep : e.toJson.unread.keeping ["process", "createdAt", "outputs"] = e.toJson.unread :=
    Json.keeping_unread (List.Subset.refl _)
  have houtputs : ∀ f ∈ e.outputs.map fun output => (output.1, output.2.toJson),
      Value.outline f.2.unread = f.2.unread :=
    List.forall_mem_map.mpr fun output _ => output.2.outline_unread
  have houtline : outline e.toJson.unread =
      (e.toJson.unread.keeping ["process", "createdAt", "outputs"]).mapFields fun name content =>
        if name = "outputs" then content.mapFields fun _ v => Value.outline v else content := rfl
  rw [houtline, hkeep]
  refine Json.mapFields_unread ?_
  rw [List.forall_mem_cons, List.forall_mem_cons, List.forall_mem_singleton]
  exact ⟨rfl, rfl, Json.mapFields_unread houtputs⟩

theorem inRange_toJson (he : e.IsProper) : e.toJson.All Json.InRange := by
  refine Json.all_object_iff.mpr ⟨trivial, ?_⟩
  rw [List.forall_mem_cons, List.forall_mem_cons, List.forall_mem_singleton]
  refine ⟨trivial, trivial, Json.all_object_iff.mpr ⟨trivial, ?_⟩⟩
  exact List.forall_mem_map.mpr fun output hmem =>
    Value.inRange_toJson (he.outputs.proper output hmem)

theorem depth_toJson_le : e.toJson.depth ≤ Unread.depthLimit ↔
    ∀ output ∈ e.outputs, output.2.nesting ≤ nestingLimit := by
  have hlimit : Unread.depthLimit = nestingLimit + 1 + 1 + 1 := rfl
  rw [hlimit, toJson, Json.depth_object_le_iff, List.forall_mem_cons, List.forall_mem_cons,
    List.forall_mem_singleton, Json.depth_object_le_iff, List.forall_mem_map]
  refine (and_iff_right (Nat.zero_le _)).trans ((and_iff_right (Nat.zero_le _)).trans ?_)
  exact forall₂_congr fun output _ => Value.depth_toJson_le (by decide)

theorem ofJson?_asWritten (he : e.IsProper) : ofJson? e.toJson.asWritten =
    if e.outputs.all fun output => output.2.isFinite then some e else none := by
  obtain ⟨process, createdAt, outputs⟩ := e
  -- The outputs are read one by one, and the first that is `null` for a double refuses them all.
  have hread : ∀ {outputs : Outputs}, (∀ output ∈ outputs, output.2.IsProper) →
      (outputs.map fun output => (output.1, output.2.toJson.asWritten)).mapM
        (fun f => (Value.ofJson? f.2).map fun v => (f.1, v)) =
          if outputs.all fun output => output.2.isFinite then some outputs else none := by
    intro outputs
    induction outputs with
    | nil => exact fun _ => rfl
    | cons output outputs ih =>
      intro hproper
      rw [List.forall_mem_cons] at hproper
      rw [List.map_cons, List.mapM_cons, ih hproper.2, List.all_cons]
      simp only [Value.ofJson?_asWritten hproper.1]
      cases output.2.isFinite with
      | false => simp
      | true => cases outputs.all fun output => output.2.isFinite <;> simp
  have hwritten : (Entry.toJson ⟨process, createdAt, outputs⟩).asWritten =
      .object [("process", .string process), ("createdAt", .string (Time.toShortest createdAt)),
        ("outputs", .object (outputs.map fun output =>
          (output.1, output.2.toJson.asWritten)))] := by
    have houtputs : (Json.object (outputs.map fun output =>
        (output.1, output.2.toJson))).asWritten =
        .object (outputs.map fun output => (output.1, output.2.toJson.asWritten)) := by
      rw [Json.asWritten, Json.fieldsAsWritten_eq, List.map_map]
      rfl
    rw [← houtputs]
    rfl
  have hparts : ofJson? (Entry.toJson ⟨process, createdAt, outputs⟩).asWritten =
      ofParts? (.string process) (.string (Time.toShortest createdAt))
        (.object (outputs.map fun output => (output.1, output.2.toJson.asWritten))) := by
    rw [hwritten]
    simp [ofJson?, Json.once?]
  have hcreated (text : String) (fields : List (String × Json)) :
      ofParts? (.string process) (.string text) (.object fields) =
        (Time.readRelaxed text.toList).bind fun createdAt =>
          (fields.mapM fun f => (Value.ofJson? f.2).map fun v => (f.1, v)).bind fun outputs =>
            some ⟨process, createdAt, Dict.ofList outputs⟩ := rfl
  rw [hparts, hcreated, Time.readRelaxed_toShortest he.createdAt, Option.bind_some,
    hread he.outputs.proper]
  cases outputs.all fun output => output.2.isFinite with
  | false => rfl
  | true =>
    rw [if_pos rfl, if_pos rfl, Option.bind_some, Dict.ofList_of_sorted he.outputs.sorted]

/-- **An entry comes back from its document exactly if all its outputs are storable.** The others
are written too, as `null` or deeper than a reader goes, and the whole entry is lost with them. -/
theorem read?_document (he : e.IsProper) (hfloats : e.toJson.All Json.HasText) :
    read? e.document =
      if e.outputs.all fun output => output.2.isStorable then some e else none := by
  have hvalue : (outline e.toJson.unread).value? =
      if e.toJson.depth ≤ Unread.depthLimit then some e.toJson.asWritten else none := by
    rw [outline_unread]
    exact Json.valueWithin?_unread hfloats (inRange_toJson he) Unread.depthLimit
  rw [read?, document, Json.readBytesAs?_bytes, Json.readAs?, Json.ofPlaces?_compact hfloats,
    Option.bind_some, hvalue]
  have hstorable : (e.outputs.all fun output => output.2.isStorable) = true ↔
      e.toJson.depth ≤ Unread.depthLimit ∧
        (e.outputs.all fun output => output.2.isFinite) = true := by
    simp only [depth_toJson_le, List.all_eq_true, Value.isStorable, Bool.and_eq_true,
      decide_eq_true_eq]
    exact ⟨fun h => ⟨fun o ho => (h o ho).2, fun o ho => (h o ho).1⟩,
      fun h o ho => ⟨h.2 o ho, h.1 o ho⟩⟩
  by_cases hdepth : e.toJson.depth ≤ Unread.depthLimit
  · rw [if_pos hdepth, Option.bind_some, ofJson?_asWritten he]
    exact if_congr (by rw [hstorable, and_iff_right hdepth]) rfl rfl
  · rw [if_neg hdepth, if_neg fun h => hdepth (hstorable.mp h).1]
    rfl

end Entry

/-! ## Storing and getting -/

namespace DiskCache

variable {c : DiskCache} {t t' : FileTree} {key unique : String} {e : Entry} {now : Instant}

theorem Putting.run_cons_ok {document : Bytes} {step : Putting} {steps : List Putting}
    (h : run c key unique document (step :: steps) t = (.ok (), t')) :
    ∃ t₁, Putting.step c key unique document t step = .ok t₁ ∧
      run c key unique document steps t₁ = (.ok (), t') := by
  rw [run] at h
  split at h
  · rename_i t₁ hstep
    exact ⟨t₁, hstep, h⟩
  · cases h

/-- A put that succeeds leaves the document at the place of the key, whatever was there. -/
theorem node?_of_put (h : c.put t unique key e = (.ok (), t')) :
    isKey key = true ∧ t'.node? (c.entryFile key) = some (.file e.document) := by
  have hkey : isKey key = true := by
    by_contra hkey
    rw [put, entryPath_of_not_isKey hkey] at h
    cases h
  rw [put, entryPath_of_isKey hkey] at h
  obtain ⟨t₁, -, h⟩ := Putting.run_cons_ok h
  obtain ⟨t₂, hwritten, h⟩ := Putting.run_cons_ok h
  obtain ⟨t₃, hrenamed, h⟩ := Putting.run_cons_ok h
  cases h
  -- What is renamed is what was written: no step in between puts anything in its place.
  obtain ⟨hfree, rfl⟩ := FileTree.write_ok_iff.mp (Result.mapError_eq_ok_iff.mp hwritten)
  obtain ⟨content, hcontent, htarget, rfl⟩ :=
    FileTree.rename_ok_iff.mp (Result.mapError_eq_ok_iff.mp hrenamed)
  rw [FileTree.node?_set (FileTree.ne_root_of_obstacle? hfree), if_pos rfl] at hcontent
  cases hcontent
  refine ⟨hkey, ?_⟩
  rw [entryFile, FileTree.node?_set (FileTree.ne_root_of_obstacle? htarget), if_pos rfl]

/-- What is got after a put that succeeded. -/
theorem get_after_put (he : e.IsProper) (hfloats : e.toJson.All Json.HasText)
    (hput : c.put t unique key e = (.ok (), t')) (hlive : e.isExpired c.lifetime now = false) :
    c.get t' now key = if e.outputs.all fun output => output.2.isStorable then .ok (some e)
      else .error (.cacheRead "the file holds no entry") := by
  obtain ⟨hkey, hnode⟩ := node?_of_put hput
  rw [get_of_isKey hkey, hnode]
  simp only [Entry.read?_document he hfloats]
  cases e.outputs.all fun output => output.2.isStorable with
  | false => rfl
  | true => simp [hlive]

/-- **A stored result comes back exactly if all its outputs are storable**: if no output is a double
that is not finite, and none is JSON that is nested too deep. The exit value is a number of thirty-two
bits, and that a finite double reads back from its text is taken for the doubles that are stored. -/
theorem get_of_put {selected : List OutputParameter} {o : RunOutput} {outputs : Outputs}
    {process : String} {createdAt : Instant}
    (hexit : Value.leastInt ≤ o.exitCode ∧ o.exitCode ≤ Value.greatestInt)
    (hcollect : Run.collect selected o = .ok outputs) (hcreated : createdAt.IsProper)
    (hfloats : (Entry.toJson ⟨process, createdAt, outputs⟩).All Json.HasText)
    (hput : c.put t unique key ⟨process, createdAt, outputs⟩ = (.ok (), t'))
    (hlive : Entry.isExpired ⟨process, createdAt, outputs⟩ c.lifetime now = false) :
    c.get t' now key = if outputs.all fun output => output.2.isStorable
      then .ok (some ⟨process, createdAt, outputs⟩)
      else .error (.cacheRead "the file holds no entry") := by
  have he : Entry.IsProper ⟨process, createdAt, outputs⟩ :=
    ⟨hcreated, Run.isProper_of_collect hexit hcollect⟩
  exact get_after_put he hfloats hput hlive

/-! ### A level that is printed -/

def cellar : DiskCache := ⟨[], 3600, 1000⟩

def cellarKey : String := String.ofList (List.replicate 64 'c')

/-- A double on the output stream. -/
def level : OutputParameter := ⟨"level", none, .double, false, none, none, some .stdout⟩

def printed (text : String) : RunOutput := ⟨0, Text.bytes text, [], []⟩

/-- An entry with the level `d`. -/
def levelEntry (d : Double) : Entry := ⟨"gauge", ⟨1767225600, 0⟩, [("level", .double d)]⟩

theorem collect_level {text : String} {d : Double}
    (h : readNumeral .double Decimal.readDouble (Text.bytes text) = .ok d) :
    Run.collect [level] (printed text) = .ok (levelEntry d).outputs := by
  have hread : Value.ofBytes .double (printed text).stdout = .ok (.double d) :=
    congrArg (Except.map Value.double) h
  have hconvert : Run.convert level (printed text) = .ok (.double d) := by
    show (Value.ofBytes .double (printed text).stdout >>= fun v => _) = _
    rw [hread]
    rfl
  rw [Run.collect, Run.collectInto, hconvert]
  rfl

theorem exists_put_cellar (e : Entry) :
    ∃ t, cellar.put .empty "1" cellarKey e = (.ok (), t) := by
  have hfree : ∀ path : Path, path ≠ [] → FileTree.empty.node? path = none := by
    intro path hpath
    rw [FileTree.node?_of_ne_root hpath]
    rfl
  obtain ⟨t, hput, -⟩ := @put_of_room cellar .empty cellarKey "1" e FileTree.wellFormed_empty
    FileTree.node?_root (by decide +kernel)
    (fun content => by simp [hfree (shard cellar cellarKey) (by simp [shard])])
    (by simp [hfree (temporaryPath cellar cellarKey "1") (by simp [temporaryPath])])
    (by simp [hfree (entryFile cellar cellarKey) (by simp [entryFile])])
  exact ⟨t, hput⟩

theorem isProper_levelTime : Instant.IsProper ⟨1767225600, 0⟩ :=
  ⟨by decide +kernel, .inl (by decide)⟩

/-- A level that is a number comes back. -/
theorem get_of_put_level : ∃ t',
    Run.collect [level] (printed "1.5") = .ok (levelEntry (.ofDecimal false 15 (-1))).outputs ∧
    cellar.put .empty "1" cellarKey (levelEntry (.ofDecimal false 15 (-1))) = (.ok (), t') ∧
    cellar.get t' ⟨1767225660, 0⟩ cellarKey =
      .ok (some (levelEntry (.ofDecimal false 15 (-1)))) := by
  obtain ⟨t', hput⟩ := exists_put_cellar (levelEntry (.ofDecimal false 15 (-1)))
  have hcollect := @collect_level "1.5" (.ofDecimal false 15 (-1)) (by decide +kernel)
  have hbounds : Value.leastInt ≤ (printed "1.5").exitCode ∧
      (printed "1.5").exitCode ≤ Value.greatestInt := by
    decide
  have hback : Json.ReadsBack (.ofDecimal false 15 (-1)) := by decide +kernel
  have hfloats : (levelEntry (.ofDecimal false 15 (-1))).toJson.All Json.HasText :=
    ⟨trivial, trivial, trivial, ⟨trivial, ⟨trivial, trivial, fun _ => hback, trivial⟩, trivial⟩,
      trivial⟩
  have hlive : (levelEntry (.ofDecimal false 15 (-1))).isExpired cellar.lifetime ⟨1767225660, 0⟩ =
      false := by
    decide +kernel
  have hget := get_of_put hbounds hcollect isProper_levelTime hfloats hput hlive
  rw [if_pos (by decide +kernel)] at hget
  exact ⟨t', hcollect, hput, hget⟩

/-- **A level beyond all numbers is stored and cannot be got**, though it has not expired. -/
theorem get_of_put_infinite : ∃ t',
    Run.collect [level] (printed "inf") = .ok (levelEntry (.infinite false)).outputs ∧
    cellar.put .empty "1" cellarKey (levelEntry (.infinite false)) = (.ok (), t') ∧
    (levelEntry (.infinite false)).isExpired cellar.lifetime ⟨1767225660, 0⟩ = false ∧
    cellar.get t' ⟨1767225660, 0⟩ cellarKey =
      .error (.cacheRead "the file holds no entry") := by
  obtain ⟨t', hput⟩ := exists_put_cellar (levelEntry (.infinite false))
  have hproper : (levelEntry (.infinite false)).IsProper :=
    ⟨isProper_levelTime, List.pairwise_singleton .., List.forall_mem_singleton.mpr trivial⟩
  have hfloats : (levelEntry (.infinite false)).toJson.All Json.HasText :=
    ⟨trivial, trivial, trivial, ⟨trivial, ⟨trivial, trivial, nofun, trivial⟩, trivial⟩, trivial⟩
  have hcollect := @collect_level "inf" (.infinite false) (by decide +kernel)
  have hlive : (levelEntry (.infinite false)).isExpired cellar.lifetime ⟨1767225660, 0⟩ =
      false := by
    decide +kernel
  exact ⟨t', hcollect, hput, hlive, get_after_put hproper hfloats hput hlive⟩

end DiskCache

end CachedRun
