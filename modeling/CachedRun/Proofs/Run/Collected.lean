import CachedRun.Proofs.Convert
import CachedRun.Proofs.Key.Keyable
import CachedRun.Proofs.Run.Results

/-!
# Collected outputs — of what was selected, and of its kind

A reader is told the binding of what it reads, and gives a value of that binding. The exit value
alone is collected without a look at the declaration: it is an integer whatever was declared, and an
output built by hand may say that it is a document. **A configuration that was read does not**, since
its document may declare nothing but integers there (`binding_of_reading`).

So the outputs of a run are of the kinds that were declared (`collected_of_read`): step by step a
value enters the table under the identifier of an output that was selected, of the binding and with
the checks of that output, and what is not optional is there or the run is refused.
-/

set_option autoImplicit false

namespace CachedRun

open Result

/-! ## Declarations -/

/-- Only an integer can be declared of the exit value, and that is what it is. -/
theorem eq_int_of_mem_outputBindings {binding : Binding}
    (h : binding ∈ outputBindings Collection.exitValue.key) : binding = .int := by
  have hexitValue : outputBindings Collection.exitValue.key = [.int] := by decide
  rw [hexitValue] at h
  exact List.mem_singleton.mp h

namespace Run

variable {o : RunOutput} {p : OutputParameter} {ps : List OutputParameter} {v : Value}
  {found outputs : Outputs} {e : String × Value} {id : String}

/-- What is collected is of the binding of its output, if that goes with the collection. -/
theorem binding_of_reading {collection : Collection}
    (hcollection : p.declaredCollection = some collection)
    (hbinding : p.binding ∈ outputBindings collection.key) (h : reading p o = .ok v) :
    v.binding = p.binding := by
  rw [reading_of_collection hcollection] at h
  cases collection with
  | stdout | stderr => exact (Value.sound_of_ofBytes h).1
  | exitValue =>
    cases h
    exact (eq_int_of_mem_outputBindings hbinding).symm
  | file path => exact (Value.sound_of_ofFiles h).1

/-! ## One output after the other -/

/-- One output adds nothing but its own value, under its own name. -/
theorem mem_keep (h : e ∈ keep o found p) :
    e ∈ found ∨ p.id = e.1 ∧ value? o p = some e.2 := by
  unfold keep at h
  split at h
  · rename_i v hv
    rcases Dict.mem_of_mem_insert h with rfl | h
    · exact .inr ⟨rfl, hv⟩
    · exact .inl h
  · exact .inl h

theorem mem_foldl_keep (h : e ∈ ps.foldl (keep o) found) :
    e ∈ found ∨ ∃ p ∈ ps, p.id = e.1 ∧ value? o p = some e.2 := by
  induction ps generalizing found with
  | nil => exact .inl h
  | cons p ps ih =>
    rcases ih h with h | ⟨q, hq, hvalue⟩
    · exact (mem_keep h).imp_right fun hvalue => ⟨p, List.mem_cons_self .., hvalue⟩
    · exact .inr ⟨q, List.mem_cons_of_mem p hq, hvalue⟩

/-- One output takes no name away, and adds its own if it has a value. -/
theorem contains_keep (h : found.contains id = true ∨ p.id = id ∧ (value? o p).isSome = true) :
    (keep o found p).contains id = true := by
  unfold keep
  split
  · rw [Dict.contains, Dict.find?_insert]
    split
    · rfl
    · rename_i hne
      exact h.resolve_right fun hid => hne hid.1
  · rename_i hnone
    simpa [hnone] using h

theorem contains_foldl_keep
    (h : found.contains id = true ∨ ∃ p ∈ ps, p.id = id ∧ (value? o p).isSome = true) :
    (ps.foldl (keep o) found).contains id = true := by
  induction ps generalizing found with
  | nil => simpa using h
  | cons p ps ih =>
    refine ih ?_
    rcases h with h | ⟨q, hq, hvalue⟩
    · exact .inl (contains_keep (.inl h))
    · rcases List.mem_cons.mp hq with rfl | hq
      · exact .inl (contains_keep (.inr hvalue))
      · exact .inr ⟨q, hq, hvalue⟩

/-- Outputs are collected if none is missing that must not be, and all values are kept. -/
theorem collect_eq_ok_iff : collect ps o = .ok outputs ↔
    (∀ p ∈ ps, faultOf? o p = none) ∧ ps.foldl (keep o) [] = outputs := by
  rw [collect, collectInto_eq, ← List.findSome?_eq_none_iff]
  cases ps.findSome? (faultOf? o) with
  | none => simp
  | some fault => simp

theorem isSome_value?_of_faultOf? (h : faultOf? o p = none) (hoptional : p.optional = false) :
    (value? o p).isSome = true := by
  unfold faultOf? at h
  rw [value?]
  split at h
  · rename_i hconvert
    rw [hconvert]
    rfl
  · rw [hoptional] at h
    cases h

/-! ## Selected outputs -/

theorem mem_selected_iff {c : Configuration} {requested : List String} :
    p ∈ selected c requested ↔ p ∈ c.outputs ∧ (requested = [] ∨ p.id ∈ requested) := by
  simp [selected]

/-- **The outputs of a run** under a configuration that was read are outputs that it declares and
that were requested, unless none were and all are meant. Each value is of the binding that is
declared for its name and passes the checks of that declaration. No output is missing that is not
optional. -/
theorem collected_of_read {registry : Registry} {document : String} {c : Configuration}
    (hread : Configuration.read registry document = .ok c) {requested : List String}
    (h : collect (selected c requested) o = .ok outputs) :
    (∀ id v, (id, v) ∈ outputs →
      (∃ p ∈ c.outputs, p.id = id) ∧ (requested ≠ [] → id ∈ requested) ∧
        ∃ p ∈ selected c requested, p.id = id ∧ v.binding = p.binding ∧ p.validate v = .ok ()) ∧
    ∀ p ∈ selected c requested, p.optional = false → outputs.contains p.id = true := by
  obtain ⟨hnone, rfl⟩ := collect_eq_ok_iff.mp h
  refine ⟨fun id v hmem => ?_, fun p hp hoptional => ?_⟩
  · obtain ⟨p, hp, rfl, hvalue⟩ := (mem_foldl_keep hmem).resolve_left List.not_mem_nil
    obtain ⟨hdeclared, hrequested⟩ := mem_selected_iff.mp hp
    obtain ⟨hreading, hvalid⟩ := value?_eq_some_iff.mp hvalue
    obtain ⟨fields, hparts⟩ := Configuration.exists_readsFrom hread
    obtain ⟨element, hreadOutput⟩ := Configuration.exists_read_of_mem hparts.outputs hdeclared
    obtain ⟨collection, hcollection, hbinding⟩ :=
      Configuration.collection_of_readOutput hreadOutput
    exact ⟨⟨p, hdeclared, rfl⟩, hrequested.resolve_left, p, hp, rfl,
      binding_of_reading hcollection hbinding hreading, hvalid⟩
  · exact contains_foldl_keep
      (.inr ⟨p, hp, rfl, isSome_value?_of_faultOf? (hnone p hp) hoptional⟩)

/-! A gauge ends with its level and, if it can, tells what it noticed. -/

def gaugeDocument : String :=
  "\x7b\"title\":\"gauge\",\"imageId\":\"gauge\",\"workingDirectory\":\"/\"," ++
  "\"commandToExecute\":\"gauge\",\"output\":[" ++
  "\x7b\"title\":\"notes\",\"readFrom\":\"stdout\",\"type\":\"json\",\"optional\":true\x7d," ++
  "\x7b\"title\":\"level\",\"readFrom\":\"exitValue\",\"type\":\"int\"\x7d]\x7d"

def gaugeOutputs : List OutputParameter :=
  [⟨"notes", none, .json, true, none, none, some .stdout⟩,
    ⟨"level", none, .int, false, none, none, some .exitValue⟩]

theorem exists_gauge : ∃ c, Configuration.read .default gaugeDocument = .ok c ∧
    c.outputs = gaugeOutputs := map_eq_ok_iff.mp (by decide +kernel)

/-- What this run prints is no JSON, and the notes are left out. -/
theorem collected_gauge : ∃ c, Configuration.read .default gaugeDocument = .ok c ∧
    collect (selected c ["level", "notes"]) ⟨3, Text.bytes "?", [], []⟩ =
      .ok [("level", .int 3)] ∧
    (∀ id v, (id, v) ∈ [("level", Value.int 3)] →
      (∃ p ∈ c.outputs, p.id = id) ∧ (["level", "notes"] ≠ [] → id ∈ ["level", "notes"]) ∧
        ∃ p ∈ selected c ["level", "notes"], p.id = id ∧ v.binding = p.binding ∧
          p.validate v = .ok ()) ∧
    ∀ p ∈ selected c ["level", "notes"], p.optional = false →
      Dict.contains p.id [("level", Value.int 3)] = true := by
  obtain ⟨c, hread, houtputs⟩ := exists_gauge
  have hcollect : collect (selected c ["level", "notes"]) ⟨3, Text.bytes "?", [], []⟩ =
      .ok [("level", .int 3)] := by
    rw [selected, houtputs]
    rfl
  exact ⟨c, hread, hcollect, collected_of_read hread hcollect⟩

end Run

end CachedRun
