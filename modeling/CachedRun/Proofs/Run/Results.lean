import CachedRun.CachedProcess
import CachedRun.Proofs.Run.Assembly

/-!
# Results — what requests with one key make of one run

A key is to decide a result: of a run that left the same behind, two requests with one key are to
make the same. What they make of it is `Request.settle`, the handlers and then the outputs.

The handlers are in the key by their names, and one registry has one handler for a name, so they
agree. Of an output everything is in the key but its **declared schema**, which `convert` checks at
the end. So two requests with one key read the same values and may still accept different ones, and
one of them may be served from the cache what it would have refused itself
(`stream_does_not_decide_result`).

`settle_eq_iff_concordant` says that there is no more to it. The results of two requests with one
key are the same if and only if the handlers refuse the run or the schemas are `Concordant` on it.
-/

set_option autoImplicit false

namespace CachedRun

open Key Result

/-! ## The result of a run

What is handed out depends on the run through the handlers and the outputs, in this order. -/

/-- What a request makes of a run: the handlers look at it, and the outputs are collected. -/
def Key.Request.settle (q : Request) (o : RunOutput) : Except Fault Outputs := do
  Run.judge q.configuration o
  Run.collect (Run.selected q.configuration q.requested) o

/-- The handlers of a configuration were created by a registry. -/
structure Registry.Creates (registry : Registry) (c : Configuration) : Prop where
  stderr : ∀ h ∈ c.stderrHandler, registry.stderrHandler h.name = .ok (some h)
  exitValue : ∀ h ∈ c.exitValueHandler, registry.exitValueHandler h.name = .ok (some h)
  stdout : ∀ h ∈ c.stdoutHandler, registry.stdoutHandler h.name = .ok (some h)

namespace Run

/-- The value of an output before it is checked. -/
def reading (p : OutputParameter) (o : RunOutput) : Except Fault Value := do
  match ← p.collection with
  | .stdout => Value.ofBytes p.binding o.stdout
  | .stderr => Value.ofBytes p.binding o.stderr
  | .exitValue => .ok (.int o.exitCode)
  | .file path => Id.run (Value.ofFiles p.binding path fun path => o.files.find? path)

theorem convert_eq (p : OutputParameter) (o : RunOutput) :
    convert p o = do
      let v ← reading p o
      p.validate v
      return v := by
  unfold convert reading
  cases p.collection with
  | error fault => rfl
  | ok collection => cases collection <;> rfl

theorem convert_eq_ok_iff {p : OutputParameter} {o : RunOutput} {v : Value} :
    convert p o = .ok v ↔ reading p o = .ok v ∧ p.validate v = .ok () := by
  rw [convert_eq]
  simp only [bind_eq_ok_iff, pure, Except.pure, Except.ok.injEq]
  constructor
  · rintro ⟨v, hv, ⟨⟩, hvalid, rfl⟩
    exact ⟨hv, hvalid⟩
  · rintro ⟨hv, hvalid⟩
    exact ⟨v, hv, (), hvalid, rfl⟩

/-- What a run left for a binding at the place of a collection. -/
def leftAt (binding : Binding) (o : RunOutput) : Collection → Except Fault Value
  | .stdout => Value.ofBytes binding o.stdout
  | .stderr => Value.ofBytes binding o.stderr
  | .exitValue => .ok (.int o.exitCode)
  | .file path => Id.run (Value.ofFiles binding path fun path => o.files.find? path)

theorem reading_of_collection {p : OutputParameter} {collection : Collection}
    (h : p.declaredCollection = some collection) (o : RunOutput) :
    reading p o = leftAt p.binding o collection := by
  rw [reading, OutputParameter.collection, h]
  cases collection <;> rfl

/-- Why an output that is not optional has no value, if it has none. -/
def faultOf? (o : RunOutput) (p : OutputParameter) : Option Fault :=
  match convert p o with
  | .ok _ => none
  | .error fault => if p.optional then none else some fault

/-- The value of an output, if it has one. -/
def value? (o : RunOutput) (p : OutputParameter) : Option Value := (convert p o).toOption

/-- Adds the value of an output to a table, if it has one. -/
def keep (o : RunOutput) (found : Outputs) (p : OutputParameter) : Outputs :=
  match value? o p with
  | some v => found.insert p.id v
  | none => found

/-- The first output that must have a value and has none decides; without one, all values are
kept. -/
theorem collectInto_eq (o : RunOutput) (found : Outputs) (ps : List OutputParameter) :
    collectInto o found ps = match ps.findSome? (faultOf? o) with
      | some fault => .error fault
      | none => .ok (ps.foldl (keep o) found) := by
  induction ps generalizing found with
  | nil => rfl
  | cons p ps ih =>
    rw [collectInto, List.findSome?_cons, List.foldl_cons, keep, value?, faultOf?]
    cases convert p o with
    | ok v => exact ih _
    | error fault =>
      cases p.optional with
      | true => exact ih _
      | false => rfl

/-- What the schemas of outputs make of a run is the same: one output is the first to fail, with one
fault, or none fails and the optional ones have values together. -/
structure Concordant (o : RunOutput) (ps qs : List OutputParameter) : Prop where
  fault : ps.findSome? (faultOf? o) = qs.findSome? (faultOf? o)
  kept : ps.findSome? (faultOf? o) = none →
    List.Forall₂ (fun p q => (value? o p).isSome = (value? o q).isSome) ps qs

/-! ## What a key holds of an output

The name, the binding and where it is read from, and whether it may be missing. Not its schema. -/

/-- Two outputs are the same in a key. -/
def SameFacts (p q : OutputParameter) : Prop :=
  ∃ x, outputFacts? p = some x ∧ outputFacts? q = some x

theorem SameFacts.id_eq {p q : OutputParameter} (h : SameFacts p q) : p.id = q.id := by
  obtain ⟨x, hp, hq⟩ := h
  rw [← (outputFacts?_eq_some_iff.mp hp).1, ← (outputFacts?_eq_some_iff.mp hq).1]

theorem SameFacts.binding_eq {p q : OutputParameter} (h : SameFacts p q) :
    p.binding = q.binding := by
  obtain ⟨x, hp, hq⟩ := h
  rw [← (outputFacts?_eq_some_iff.mp hp).2.1, ← (outputFacts?_eq_some_iff.mp hq).2.1]

theorem SameFacts.optional_eq {p q : OutputParameter} (h : SameFacts p q) :
    p.optional = q.optional := by
  obtain ⟨x, hp, hq⟩ := h
  rw [← (outputFacts?_eq_some_iff.mp hp).2.2.1, ← (outputFacts?_eq_some_iff.mp hq).2.2.1]

theorem SameFacts.reading_eq {p q : OutputParameter} (h : SameFacts p q) (o : RunOutput) :
    reading p o = reading q o := by
  have hbinding := h.binding_eq
  obtain ⟨x, hp, hq⟩ := h
  have hcp := (outputFacts?_eq_some_iff.mp hp).2.2.2
  have hcq := (outputFacts?_eq_some_iff.mp hq).2.2.2
  simp only [reading, OutputParameter.collection, hcp, hcq, hbinding]

theorem value?_eq_some_iff {p : OutputParameter} {o : RunOutput} {v : Value} :
    value? o p = some v ↔ reading p o = .ok v ∧ p.validate v = .ok () := by
  rw [value?, toOption_eq_some_iff, convert_eq_ok_iff]

/-- Where both have a value, it is one. -/
theorem SameFacts.value?_eq {p q : OutputParameter} {o : RunOutput} (h : SameFacts p q)
    (hsome : (value? o p).isSome = (value? o q).isSome) : value? o p = value? o q := by
  cases hp : value? o p with
  | none =>
    rw [hp] at hsome
    exact (Option.isNone_iff_eq_none.mp (by simpa using hsome.symm)).symm
  | some v =>
    rw [hp] at hsome
    obtain ⟨w, hq⟩ := Option.isSome_iff_exists.mp hsome.symm
    have hv := (value?_eq_some_iff.mp hp).1
    rw [h.reading_eq, (value?_eq_some_iff.mp hq).1, Except.ok.injEq] at hv
    rw [hq, hv]

/-- An output is converted by its facts and its declared schema. -/
theorem SameFacts.convert_eq {p q : OutputParameter} (h : SameFacts p q)
    (hschema : p.declaredSchema = q.declaredSchema) (o : RunOutput) :
    convert p o = convert q o := by
  have hvalidate : p.validate = q.validate := by
    funext v
    unfold OutputParameter.validate
    rw [hschema, h.id_eq, h.binding_eq]
  rw [Run.convert_eq, Run.convert_eq, h.reading_eq, hvalidate]

/-! ## Tables of values

Outputs may share a name, and then the last value counts. So a table tells the value of each output
only if the names are distinct. -/

theorem foldl_keep_eq {o : RunOutput} {ps qs : List OutputParameter} {found : Outputs}
    (hfacts : List.Forall₂ SameFacts ps qs)
    (hsome : List.Forall₂ (fun p q => (value? o p).isSome = (value? o q).isSome) ps qs) :
    ps.foldl (keep o) found = qs.foldl (keep o) found := by
  induction hfacts generalizing found with
  | nil => rfl
  | @cons p q ps qs hpq _ ih =>
    obtain ⟨hvalue, hrest⟩ := List.forall₂_cons.mp hsome
    rw [List.foldl_cons, List.foldl_cons, keep, keep, hpq.value?_eq hvalue, hpq.id_eq]
    exact ih hrest

theorem find?_keep_of_ne {o : RunOutput} {found : Outputs} {p : OutputParameter} {id : String}
    (h : p.id ≠ id) : (keep o found p).find? id = found.find? id := by
  unfold keep
  split
  · rw [Dict.find?_insert, if_neg h]
  · rfl

theorem find?_foldl_keep_of_not_mem {o : RunOutput} {id : String} {ps : List OutputParameter}
    {found : Outputs} (h : id ∉ ps.map (·.id)) :
    (ps.foldl (keep o) found).find? id = found.find? id := by
  induction ps generalizing found with
  | nil => rfl
  | cons p ps ih =>
    rw [List.map_cons, List.mem_cons, not_or] at h
    rw [List.foldl_cons, ih h.2, find?_keep_of_ne (Ne.symm h.1)]

/-- In a table of outputs with distinct names each is found with its own value. -/
theorem find?_foldl_keep {o : RunOutput} {p : OutputParameter} {ps : List OutputParameter}
    {found : Outputs} (hids : (ps.map (·.id)).Nodup) (hp : p ∈ ps)
    (hfound : found.find? p.id = none) : (ps.foldl (keep o) found).find? p.id = value? o p := by
  induction ps generalizing found with
  | nil => exact absurd hp List.not_mem_nil
  | cons q ps ih =>
    obtain ⟨hnot, hids⟩ := List.nodup_cons.mp hids
    rw [List.foldl_cons]
    rcases List.mem_cons.mp hp with rfl | hp
    · rw [find?_foldl_keep_of_not_mem hnot]
      unfold keep
      cases value? o p with
      | none => exact hfound
      | some v => exact Dict.find?_insert_self _ _ _
    · have hne : q.id ≠ p.id := fun h => hnot (List.mem_map.mpr ⟨p, hp, h.symm⟩)
      exact ih hids hp ((find?_keep_of_ne hne).trans hfound)

theorem collect_eq_of_concordant {o : RunOutput} {ps qs : List OutputParameter}
    (hfacts : List.Forall₂ SameFacts ps qs) (h : Concordant o ps qs) :
    collect ps o = collect qs o := by
  rw [collect, collect, collectInto_eq, collectInto_eq, ← h.fault]
  cases hfault : ps.findSome? (faultOf? o) with
  | some fault => rfl
  | none => simp only [foldl_keep_eq hfacts (h.kept hfault)]

/-- Outputs of distinct names are collected alike only if their schemas are concordant. -/
theorem concordant_of_collect_eq {o : RunOutput} {ps qs : List OutputParameter}
    (hfacts : List.Forall₂ SameFacts ps qs) (hids : (ps.map (·.id)).Nodup)
    (h : collect ps o = collect qs o) : Concordant o ps qs := by
  rw [collect, collect, collectInto_eq, collectInto_eq] at h
  have hids' : (qs.map (·.id)).Nodup := by
    have hmap : ps.map (·.id) = qs.map (·.id) := by
      rw [← List.forall₂_eq_eq_eq, List.forall₂_map_left_iff, List.forall₂_map_right_iff]
      exact hfacts.imp fun _ _ => SameFacts.id_eq
    rwa [← hmap]
  -- Both collections fail, and with the same fault, or both give a table. In the tables each name
  -- has the value of its own output, since no other has that name.
  cases hp : ps.findSome? (faultOf? o) <;> cases hq : qs.findSome? (faultOf? o) <;>
    rw [hp, hq] at h
  case some.some fault fault' => exact ⟨by rw [hp, hq, Except.error.inj h], by simp [hp]⟩
  case none.some | some.none => cases h
  case none.none =>
    refine ⟨by rw [hp, hq], fun _ => ?_⟩
    have htable := Except.ok.inj h
    rw [List.forall₂_iff_zip] at hfacts ⊢
    refine ⟨hfacts.1, fun {p q} hpq => ?_⟩
    obtain ⟨hmem, hmem'⟩ := List.of_mem_zip hpq
    have hvalue : Dict.find? p.id (ps.foldl (keep o) []) = value? o p :=
      find?_foldl_keep hids hmem rfl
    rw [htable, (hfacts.2 hpq).id_eq, find?_foldl_keep hids' hmem' rfl] at hvalue
    rw [hvalue]

/-- Outputs with the same schemas are concordant on every run. -/
theorem concordant_of_schemas {ps qs : List OutputParameter}
    (hfacts : List.Forall₂ SameFacts ps qs)
    (hschemas : ps.map (·.declaredSchema) = qs.map (·.declaredSchema)) (o : RunOutput) :
    Concordant o ps qs := by
  induction hfacts with
  | nil => exact ⟨rfl, fun _ => .nil⟩
  | @cons p q ps qs hpq _ ih =>
    obtain ⟨hschema, hrest⟩ := List.cons.inj hschemas
    obtain ⟨hfault, hkept⟩ := ih hrest
    have hconvert := hpq.convert_eq hschema o
    have hone : faultOf? o p = faultOf? o q := by
      rw [faultOf?, faultOf?, hconvert, hpq.optional_eq]
    refine ⟨by rw [List.findSome?_cons, List.findSome?_cons, hone, hfault], fun hnone => ?_⟩
    rw [List.findSome?_cons] at hnone
    split at hnone
    · cases hnone
    · exact .cons (by rw [value?, value?, hconvert]) (hkept hnone)

/-! ## Handlers -/

/-- Two handlers of one name that one registry created are one. -/
theorem handler_eq {κ : Type} {create : String → Except Fault (Option (Handler κ))}
    {h h' : Option (Handler κ)} (hc : ∀ x ∈ h, create x.name = .ok (some x))
    (hc' : ∀ x ∈ h', create x.name = .ok (some x)) (hname : h.map (·.name) = h'.map (·.name)) :
    h = h' := by
  cases h <;> cases h'
  case none.none => rfl
  case some.some x y =>
    have hxy : x.name = y.name := Option.some.inj hname
    have hx := hc x rfl
    rw [hxy, hc' y rfl] at hx
    rw [Option.some.inj (Except.ok.inj hx)]
  all_goals cases hname

theorem judge_eq {registry : Registry} {c d : Configuration} (hc : registry.Creates c)
    (hd : registry.Creates d) (hname : ∀ slot, c.handlerName slot = d.handlerName slot)
    (o : RunOutput) : judge c o = judge d o := by
  unfold judge
  rw [handler_eq hc.stderr hd.stderr (hname .stderr),
    handler_eq hc.exitValue hd.exitValue (hname .exitValue),
    handler_eq hc.stdout hd.stdout (hname .stdout)]

/-! ## Requests with one key -/

/-- The outputs that two requests of one description select. -/
theorem selected_sameFacts {a b : Request} {x : Facts} (ha : a.facts? = some x)
    (hb : b.facts? = some x) :
    List.Forall₂ SameFacts (selected a.configuration a.requested)
      (selected b.configuration b.requested) := by
  have hda := Request.describes_of_facts? ha
  have hdb := Request.describes_of_facts? hb
  rw [← hda.requested, ← hdb.requested]
  exact forall₂_of_common (selected_facts hda.outputs) (selected_facts hdb.outputs)

theorem judge_eq_of_facts {a b : Request} {x : Facts} {registry : Registry}
    (ha : a.facts? = some x) (hb : b.facts? = some x) (hca : registry.Creates a.configuration)
    (hcb : registry.Creates b.configuration) (o : RunOutput) :
    judge a.configuration o = judge b.configuration o := by
  have hda := Request.describes_of_facts? ha
  have hdb := Request.describes_of_facts? hb
  refine judge_eq hca hcb (fun slot => ?_) o
  cases slot with
  | stderr => rw [← hda.stderrHandler, hdb.stderrHandler]
  | exitValue => rw [← hda.exitValueHandler, hdb.exitValueHandler]
  | stdout => rw [← hda.stdoutHandler, hdb.stdoutHandler]

/-- **Where the results of two requests with one key are the same.** They are if the handlers refuse
the run or the schemas of the outputs are concordant on it, and if the names of the outputs are
distinct, only then. All else that a result depends on is folded into the key, and of an output its
schema is not. -/
theorem settle_eq_iff_concordant {a b : Request} {r₁ r₂ registry : Registry} {l m : List Field}
    (ha : a.fields r₁ = .ok l) (hb : b.fields r₂ = .ok m) (hfa : a.Fits) (hfb : b.Fits)
    (h : stream l = stream m) (hca : registry.Creates a.configuration)
    (hcb : registry.Creates b.configuration) (o : RunOutput) :
    ((∃ fault, judge a.configuration o = .error fault) ∨
        Concordant o (selected a.configuration a.requested) (selected b.configuration b.requested) →
      a.settle o = b.settle o) ∧
    (((selected a.configuration a.requested).map (·.id)).Nodup → a.settle o = b.settle o →
      (∃ fault, judge a.configuration o = .error fault) ∨
        Concordant o (selected a.configuration a.requested)
          (selected b.configuration b.requested)) := by
  obtain ⟨x, hx, hy⟩ := facts_eq_of_stream_eq ha hb hfa hfb h
  have hfacts := selected_sameFacts hx hy
  have hjudge := judge_eq_of_facts hx hy hca hcb o
  unfold Request.settle
  -- The handlers are folded, so they judge alike, and only the collection is left.
  rw [← hjudge]
  cases judge a.configuration o with
  | error fault => exact ⟨fun _ => rfl, fun _ _ => .inl ⟨fault, rfl⟩⟩
  | ok _ =>
    constructor
    · rintro (⟨fault, hfault⟩ | hconcordant)
      · cases hfault
      · exact collect_eq_of_concordant hfacts hconcordant
    · exact fun hids heq => .inr (concordant_of_collect_eq hfacts hids heq)

/-- Had a key the schemas of the outputs too, it would decide the result. -/
theorem settle_eq_of_schemas {a b : Request} {r₁ r₂ registry : Registry} {l m : List Field}
    (ha : a.fields r₁ = .ok l) (hb : b.fields r₂ = .ok m) (hfa : a.Fits) (hfb : b.Fits)
    (h : stream l = stream m) (hca : registry.Creates a.configuration)
    (hcb : registry.Creates b.configuration)
    (hschemas : (selected a.configuration a.requested).map (·.declaredSchema) =
      (selected b.configuration b.requested).map (·.declaredSchema)) (o : RunOutput) :
    a.settle o = b.settle o := by
  obtain ⟨x, hx, hy⟩ := facts_eq_of_stream_eq ha hb hfa hfb h
  have hfacts := selected_sameFacts hx hy
  unfold Request.settle
  rw [judge_eq_of_facts hx hy hca hcb o,
    collect_eq_of_concordant hfacts (concordant_of_schemas hfacts hschemas o)]

/-! ## A schema that a key does not tell

`survey` prints a document. Whether the document must belong to a schema is not in the key. -/

def survey (schema : Option String) : Configuration where
  id := "survey"
  summary := none
  image := "survey:1"
  workingDirectory := "/data"
  command := ["survey"]
  flags := []
  inputs := []
  outputs := [⟨"report", none, .xml, false, schema, none, some .stdout⟩]
  stderrHandler := none
  exitValueHandler := none
  stdoutHandler := none

def surveyRequest (schema : Option String) : Request :=
  ⟨survey schema, ⟨none, none, none⟩, [], []⟩

def surveyFacts : Facts where
  process := "survey"
  image := "survey:1"
  runnerVersion := none
  serviceVersion := none
  workingDirectory := "/data"
  command := ["survey"]
  flags := []
  inputs := []
  outputs := [⟨"report", .xml, false, .stdout⟩]
  stderrHandler := none
  exitValueHandler := none
  stdoutHandler := none
  requested := []

def surveySchema : String := "http://example.org/report"

theorem facts_survey (schema : Option String) :
    (surveyRequest schema).facts? = some surveyFacts := rfl

theorem fields_survey (schema : Option String) :
    (surveyRequest schema).fields .default = .ok surveyFacts.fields :=
  Request.fields_ok_iff.mpr ⟨_, facts_survey schema, by intro slot; cases slot <;> nofun, rfl⟩

theorem fits_survey (schema : Option String) : (surveyRequest schema).Fits := by
  intro x hx
  cases (facts_survey schema).symm.trans hx
  constructor <;> decide

theorem creates_survey (schema : Option String) : Registry.default.Creates (survey schema) :=
  ⟨nofun, nofun, nofun⟩

/-- A report of no schema. -/
def plainReport : RunOutput := ⟨0, Text.bytes "<a/>", [], []⟩

/-- A report of the schema. -/
def ownReport : RunOutput := ⟨0, Text.bytes "<a xmlns='http://example.org/'/>", [], []⟩

theorem settle_plainReport_ne : (surveyRequest none).settle plainReport ≠
    (surveyRequest (some surveySchema)).settle plainReport := by
  have hfree : (surveyRequest none).settle plainReport = .ok [("report", .xml "<a/>")] := rfl
  have hbound : ∃ fault, (surveyRequest (some surveySchema)).settle plainReport = .error fault :=
    ⟨_, rfl⟩
  obtain ⟨fault, hfault⟩ := hbound
  rw [hfree, hfault]
  nofun

/-- The schemas are concordant on a report that belongs to them, and not on any other. -/
theorem settle_ownReport :
    (surveyRequest none).fields .default = .ok surveyFacts.fields ∧
    (surveyRequest (some surveySchema)).fields .default = .ok surveyFacts.fields ∧
    (surveyRequest none).Fits ∧ (surveyRequest (some surveySchema)).Fits ∧
    Registry.default.Creates (survey none) ∧
    Registry.default.Creates (survey (some surveySchema)) ∧
    (surveyRequest none).settle ownReport = (surveyRequest (some surveySchema)).settle ownReport ∧
    ¬ Concordant plainReport (survey none).outputs (survey (some surveySchema)).outputs := by
  have hiff := settle_eq_iff_concordant (fields_survey none) (fields_survey (some surveySchema))
    (fits_survey none) (fits_survey (some surveySchema)) rfl (creates_survey none)
    (creates_survey (some surveySchema))
  refine ⟨fields_survey none, fields_survey (some surveySchema), fits_survey none,
    fits_survey (some surveySchema), creates_survey none, creates_survey (some surveySchema),
    (hiff ownReport).1 (.inr ⟨rfl, fun _ => .cons rfl .nil⟩), fun hconcordant => ?_⟩
  exact settle_plainReport_ne ((hiff plainReport).1 (.inr hconcordant))

/-- **A key does not decide the result**: there are requests with one key that pass their checks and
make different results of one run. -/
theorem stream_does_not_decide_result : ¬ ∀ (a b : Request) (registry : Registry)
    (l m : List Field) (o : RunOutput), registry.Creates a.configuration →
    registry.Creates b.configuration →
    CachedProcess.check a.configuration a.inputs a.requested = .ok () →
    CachedProcess.check b.configuration b.inputs b.requested = .ok () →
    a.fields registry = .ok l → b.fields registry = .ok m → a.Fits → b.Fits →
    stream l = stream m → a.settle o = b.settle o := by
  intro h
  exact settle_plainReport_ne (h (surveyRequest none) (surveyRequest (some surveySchema)) .default
    surveyFacts.fields surveyFacts.fields plainReport (creates_survey none)
    (creates_survey (some surveySchema)) rfl rfl (fields_survey none)
    (fields_survey (some surveySchema)) (fits_survey none) (fits_survey (some surveySchema)) rfl)

end Run

end CachedRun
