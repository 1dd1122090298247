import CachedRun.Proofs.Run.Collected

/-!
# Shadowing — of outputs with one name the last stays

Outputs are collected one after the other into a table by name, and a configuration may declare a
name more than once. Then the value of a later output takes the place of an earlier one, while an
output that is optional and has no value takes no place at all. So **what is found under a name is
the last value that there is for it** (`find?_foldl_keep_eq`), and an output that is not optional is
found with its own value exactly if no other value comes after it (`kept_iff`).
-/

set_option autoImplicit false

namespace CachedRun.Run

open Result

variable {o : RunOutput} {p : OutputParameter} {ps before after : List OutputParameter}
  {found outputs : Outputs} {id : String}

/-- The last value that outputs have under a name. -/
def lastValue? (o : RunOutput) (ps : List OutputParameter) (id : String) : Option Value :=
  ((ps.filter fun p => p.id = id).filterMap (value? o)).getLast?

theorem lastValue?_cons (o : RunOutput) (p : OutputParameter) (ps : List OutputParameter)
    (id : String) : lastValue? o (p :: ps) id =
      (lastValue? o ps id).or (if p.id = id then value? o p else none) := by
  unfold lastValue?
  by_cases hid : p.id = id
  · rw [List.filter_cons_of_pos (by simpa using hid), if_pos hid]
    cases hvalue : value? o p with
    | none => rw [List.filterMap_cons_none hvalue, Option.or_none]
    | some v =>
      rw [List.filterMap_cons_some hvalue, List.getLast?_cons]
      cases List.getLast? _ <;> rfl
  · rw [List.filter_cons_of_neg (by simpa using hid), if_neg hid, Option.or_none]

/-- One output is found with its own value, if it has one, and leaves other names alone. -/
theorem find?_keep : (keep o found p).find? id =
    (if p.id = id then value? o p else none).or (found.find? id) := by
  by_cases hid : p.id = id
  · rw [if_pos hid, keep]
    cases value? o p with
    | none => rfl
    | some v => rw [Dict.find?_insert, if_pos hid, Option.some_or]
  · rw [if_neg hid, find?_keep_of_ne hid]
    rfl

/-- **The last value stays.** -/
theorem find?_foldl_keep_eq : (ps.foldl (keep o) found).find? id =
    (lastValue? o ps id).or (found.find? id) := by
  induction ps generalizing found with
  | nil => rfl
  | cons p ps ih => rw [List.foldl_cons, ih, find?_keep, lastValue?_cons, Option.or_assoc]

/-- **An output that is not optional keeps its value exactly if no other comes after it** under its
name. Otherwise the last of those is found, as the table is filled in the order of the outputs and
each value goes over the one before it. -/
theorem kept_iff {c : Configuration} {requested : List String}
    (h : collect (selected c requested) o = .ok outputs)
    (hselected : selected c requested = before ++ p :: after) (hoptional : p.optional = false) :
    ∃ v, convert p o = .ok v ∧
      outputs.find? p.id = some ((lastValue? o after p.id).getD v) ∧
      (outputs.find? p.id = some v ↔ ∀ w, lastValue? o after p.id = some w → w = v) := by
  obtain ⟨hnone, rfl⟩ := collect_eq_ok_iff.mp h
  have hmem : p ∈ selected c requested := by
    rw [hselected]
    exact List.mem_append_right _ (List.mem_cons_self ..)
  obtain ⟨v, hv⟩ := Option.isSome_iff_exists.mp (isSome_value?_of_faultOf? (hnone p hmem) hoptional)
  -- The outputs before it are overwritten, and those after it only by their last value.
  have hfound : Dict.find? p.id ((selected c requested).foldl (keep o) []) =
      some ((lastValue? o after p.id).getD v) := by
    rw [hselected, List.foldl_append, List.foldl_cons, find?_foldl_keep_eq, find?_keep, if_pos rfl,
      hv]
    cases lastValue? o after p.id <;> rfl
  refine ⟨v, toOption_eq_some_iff.mp hv, hfound, ?_⟩
  rw [hfound]
  cases lastValue? o after p.id with
  | none =>
    refine iff_of_true rfl ?_
    rintro w ⟨⟩
  | some w => simp

/-! A probe prints its reading, and may report another one on the error stream. -/

def probeDocument : String :=
  "\x7b\"title\":\"probe\",\"imageId\":\"probe\",\"workingDirectory\":\"/\"," ++
  "\"commandToExecute\":\"probe\",\"output\":[" ++
  "\x7b\"title\":\"reading\",\"readFrom\":\"stdout\",\"type\":\"string\"\x7d," ++
  "\x7b\"title\":\"reading\",\"readFrom\":\"stderr\",\"type\":\"json\",\"optional\":true\x7d]\x7d"

def printedReading : OutputParameter := ⟨"reading", none, .string, false, none, none, some .stdout⟩

def reportedReading : OutputParameter := ⟨"reading", none, .json, true, none, none, some .stderr⟩

theorem exists_probe : ∃ c, Configuration.read .default probeDocument = .ok c ∧
    c.outputs = [printedReading, reportedReading] := map_eq_ok_iff.mp (by decide +kernel)

theorem selected_probe {c : Configuration} (h : c.outputs = [printedReading, reportedReading]) :
    selected c [] = [printedReading, reportedReading] := by
  rw [selected, h]
  rfl

theorem convert_printedReading (stderr : Bytes) :
    convert printedReading ⟨0, Text.bytes "3.5", stderr, []⟩ = .ok (.string "3.5") := by
  have hreading (o : RunOutput) : reading printedReading o = Value.ofBytes .string o.stdout := rfl
  rw [convert_eq, hreading, Value.ofBytes, Value.readText_bytes]
  rfl

/-- What is reported is no JSON, and the printed reading stays. -/
theorem kept_probe : ∃ c outputs, Configuration.read .default probeDocument = .ok c ∧
    collect (selected c []) ⟨0, Text.bytes "3.5", Text.bytes "?", []⟩ = .ok outputs ∧
    selected c [] = [] ++ printedReading :: [reportedReading] ∧ printedReading.optional = false ∧
    ∃ v, convert printedReading ⟨0, Text.bytes "3.5", Text.bytes "?", []⟩ = .ok v ∧
      outputs.find? "reading" = some v := by
  obtain ⟨c, hread, houtputs⟩ := exists_probe
  have hselected := selected_probe houtputs
  have hnone : value? ⟨0, Text.bytes "3.5", Text.bytes "?", []⟩ reportedReading = none :=
    Option.isNone_iff_eq_none.mp (by decide +kernel)
  have hcollect : collect (selected c []) ⟨0, Text.bytes "3.5", Text.bytes "?", []⟩ =
      .ok [("reading", .string "3.5")] := by
    rw [hselected, collect_eq_ok_iff, List.foldl_cons, List.foldl_cons, keep, keep, hnone, value?,
      convert_printedReading]
    refine ⟨?_, rfl⟩
    rw [List.forall_mem_cons, List.forall_mem_singleton, faultOf?, faultOf?, convert_printedReading]
    refine ⟨rfl, ?_⟩
    split <;> rfl
  obtain ⟨v, hv, -, hkept⟩ := @kept_iff _ _ [] _ _ _ _ hcollect hselected rfl
  refine ⟨c, _, hread, hcollect, hselected, rfl, v, hv, hkept.mpr ?_⟩
  rw [lastValue?_cons, hnone]
  rintro w ⟨⟩

/-- The program reports another reading, and the one that it printed is lost. -/
theorem printed_reading_lost : ∃ c outputs, Configuration.read .default probeDocument = .ok c ∧
    collect (selected c []) ⟨0, Text.bytes "3.5", Text.bytes "4", []⟩ = .ok outputs ∧
    printedReading ∈ selected c [] ∧ printedReading.optional = false ∧
    convert printedReading ⟨0, Text.bytes "3.5", Text.bytes "4", []⟩ = .ok (.string "3.5") ∧
    outputs.find? "reading" = some (.json (.integer 4)) := by
  obtain ⟨c, hread, houtputs⟩ := exists_probe
  have hselected := selected_probe houtputs
  have hreported : convert reportedReading ⟨0, Text.bytes "3.5", Text.bytes "4", []⟩ =
      .ok (.json (.integer 4)) := by
    have hreading (o : RunOutput) : reading reportedReading o = Value.ofBytes .json o.stderr := rfl
    rw [convert_eq, hreading, Value.ofBytes, readJson, Json.readBytes?, Json.readBytesAs?_bytes]
    rfl
  have hcollect : collect (selected c []) ⟨0, Text.bytes "3.5", Text.bytes "4", []⟩ =
      .ok [("reading", .json (.integer 4))] := by
    rw [hselected, collect, collectInto, convert_printedReading]
    simp only [collectInto, hreported]
    rfl
  refine ⟨c, _, hread, hcollect, ?_, rfl, convert_printedReading _, rfl⟩
  rw [hselected]
  exact List.mem_cons_self ..

end CachedRun.Run
