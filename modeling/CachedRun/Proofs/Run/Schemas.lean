import CachedRun.Proofs.Run.Collected

/-!
# Schemas of outputs — only a declared one is asked for

Every seismic output has a schema to report, its own or that of its binding. The reader of a binding
asks no more than that a document is well formed, and what is read is then held against the schema
that the output itself declares. **So the root belongs to the reported schema where it was declared**
(`seismic_iff`), and an output that declares none takes a document with any root
(`undeclared_takes_any_root`).
-/

set_option autoImplicit false

namespace CachedRun

open Result

namespace OutputParameter

variable {p : OutputParameter} {schema : String} {v : Value}

theorem validate_eq_ok_iff : p.validate v = .ok () ↔
    ∀ schema, p.declaredSchema = some schema → (Validator.schema schema).check v = none := by
  rw [validate]
  split
  · rename_i rejection hrejection
    obtain ⟨schema, hschema, hcheck⟩ := Option.bind_eq_some_iff.mp hrejection
    refine iff_of_false nofun fun h => ?_
    rw [h schema hschema] at hcheck
    cases hcheck
  · rename_i hnone
    exact iff_of_true rfl (Option.bind_eq_none_iff.mp hnone)

/-- The schema that is reported is the one that is checked, if any is. -/
theorem validate_eq_ok_iff_of_schema (h : p.schema? = some schema) : p.validate v = .ok () ↔
    (p.declaredSchema.isSome = true → (Validator.schema schema).check v = none) := by
  rw [validate_eq_ok_iff]
  cases hdeclared : p.declaredSchema with
  | none => exact iff_of_true nofun nofun
  | some declared =>
    rw [schema?, hdeclared] at h
    cases h
    exact ⟨fun h _ => h _ rfl, fun h _ heq => Option.some.inj heq ▸ h rfl⟩

end OutputParameter

namespace Run

variable {o : RunOutput} {p : OutputParameter} {binding : Binding} {collection : Collection}
  {v : Value}

/-- The bytes that a run left at a place; an exit value is no bytes. -/
def leftBytes? (o : RunOutput) : Collection → Option Bytes
  | .stdout => some o.stdout
  | .stderr => some o.stderr
  | .exitValue => none
  | .file path => o.files.find? path

theorem leftAt_eq_ok_iff (hbinding : binding ≠ .shapefile) (hcollection : collection ≠ .exitValue) :
    leftAt binding o collection = .ok v ↔
      ∃ b, leftBytes? o collection = some b ∧ Value.ofBytes binding b = .ok v := by
  cases collection with
  | stdout | stderr => simp [leftAt, leftBytes?]
  | exitValue => exact absurd rfl hcollection
  | file path =>
    rw [leftAt, leftBytes?, Value.ofFiles, if_neg hbinding]
    cases hfile : o.files.find? path with
    | none =>
      constructor
      · intro h
        cases h
      · rintro ⟨_, ⟨⟩, _⟩
    | some b =>
      constructor
      · intro h
        exact ⟨b, rfl, h⟩
      · rintro ⟨_, ⟨⟩, h⟩
        exact h

/-- A value is a document that the run left at a place, and one of the binding. -/
def IsDocumentAt (o : RunOutput) (collection : Collection) (binding : Binding) (v : Value) : Prop :=
  v.binding = binding ∧ ∃ s, v.document? = some s ∧
    leftBytes? o collection = some (Text.bytes s) ∧
    ∃ canon, Xml.canonical binding.isValidatedXml s = .ok canon

theorem leftAt_xml_iff (hxml : binding.isXml = true) (hcollection : collection ≠ .exitValue) :
    leftAt binding o collection = .ok v ↔ IsDocumentAt o collection binding v := by
  have hbinding : binding ≠ .shapefile := by
    rintro rfl
    cases hxml
  rw [leftAt_eq_ok_iff hbinding hcollection, IsDocumentAt]
  simp only [Value.ofBytes_xml_iff hxml]
  constructor
  · rintro ⟨_, hleft, hv, s, hs, rfl, hcanon⟩
    exact ⟨hv, s, hs, hleft, hcanon⟩
  · rintro ⟨hv, s, hs, hleft, hcanon⟩
    exact ⟨_, hleft, hv, s, hs, rfl, hcanon⟩

/-- An output of a configuration that was read is found somewhere, and what is found as the exit
value is no document. -/
theorem exists_collection {registry : Registry} {document : String} {c : Configuration}
    (hread : Configuration.read registry document = .ok c) (hp : p ∈ c.outputs)
    (hxml : p.binding.isXml = true) :
    ∃ collection, p.declaredCollection = some collection ∧ collection ≠ .exitValue := by
  obtain ⟨fields, hparts⟩ := Configuration.exists_readsFrom hread
  obtain ⟨collection, hcollection, hbinding⟩ := hparts.collection hp
  refine ⟨collection, hcollection, ?_⟩
  rintro rfl
  rw [eq_int_of_mem_outputBindings hbinding] at hxml
  cases hxml

theorem exists_schema (h : p.binding = .quakeml ∨ p.binding = .shakemap) :
    ∃ schema, p.schema? = some schema := by
  rw [OutputParameter.schema?]
  cases p.declaredSchema with
  | some schema => exact ⟨schema, rfl⟩
  | none => rcases h with h | h <;> rw [h] <;> exact ⟨_, rfl⟩

/-- **A seismic output belongs to the schema that it reports if it declares one.** Its values are
the documents, well formed, that a run leaves at its place, and those of them whose root belongs to
the declared schema where there is one. Without one no root is refused. -/
theorem seismic_iff {registry : Registry} {document : String} {c : Configuration}
    (hread : Configuration.read registry document = .ok c) (hp : p ∈ c.outputs)
    (hbinding : p.binding = .quakeml ∨ p.binding = .shakemap) :
    ∃ collection schema, p.declaredCollection = some collection ∧ p.schema? = some schema ∧
      ∀ o v, convert p o = .ok v ↔ IsDocumentAt o collection p.binding v ∧
        (p.declaredSchema.isSome = true → (Validator.schema schema).check v = none) := by
  have hxml : p.binding.isXml = true := by rcases hbinding with h | h <;> rw [h] <;> rfl
  obtain ⟨collection, hcollection, hne⟩ := exists_collection hread hp hxml
  obtain ⟨schema, hschema⟩ := exists_schema hbinding
  refine ⟨collection, schema, hcollection, hschema, fun o v => ?_⟩
  rw [convert_eq_ok_iff, reading_of_collection hcollection, leftAt_xml_iff hxml hne,
    OutputParameter.validate_eq_ok_iff_of_schema hschema]

/-! A quake is told twice, in a catalog that declares a schema and in a map that does not. -/

def quakeDocument : String :=
  "\x7b\"title\":\"quake\",\"imageId\":\"quake\",\"workingDirectory\":\"/\"," ++
  "\"commandToExecute\":\"quake\",\"output\":[" ++
  "\x7b\"title\":\"catalog\",\"readFrom\":\"stdout\",\"type\":\"quakeml\"," ++
  "\"schema\":\"http://quakeml.org/xmlns/quakeml/1.2\"\x7d," ++
  "\x7b\"title\":\"shaking\",\"readFrom\":\"files\",\"path\":\"grid.xml\"," ++
  "\"type\":\"shakemap\"\x7d]\x7d"

def catalogOutput : OutputParameter :=
  ⟨"catalog", none, .quakeml, false, some "http://quakeml.org/xmlns/quakeml/1.2", none,
    some .stdout⟩

def shakingOutput : OutputParameter :=
  ⟨"shaking", none, .shakemap, false, none, none, some (.file "grid.xml")⟩

theorem exists_quake : ∃ c, Configuration.read .default quakeDocument = .ok c ∧
    c.outputs = [catalogOutput, shakingOutput] := map_eq_ok_iff.mp (by decide +kernel)

/-- The catalog is refused for a root of no namespace. -/
theorem seismic_quake : ∃ c, Configuration.read .default quakeDocument = .ok c ∧
    catalogOutput ∈ c.outputs ∧
    (catalogOutput.binding = .quakeml ∨ catalogOutput.binding = .shakemap) ∧
    (∃ v, convert catalogOutput
      ⟨0, Text.bytes "<q:quakeml xmlns:q='http://quakeml.org/xmlns/quakeml/1.2'/>", [], []⟩ =
        .ok v) ∧
    (∀ v, convert catalogOutput ⟨0, Text.bytes "<a/>", [], []⟩ ≠ .ok v) ∧
    ∃ collection schema, catalogOutput.declaredCollection = some collection ∧
      catalogOutput.schema? = some schema ∧
      ∀ o v, convert catalogOutput o = .ok v ↔ IsDocumentAt o collection .quakeml v ∧
        (catalogOutput.declaredSchema.isSome = true →
          (Validator.schema schema).check v = none) := by
  obtain ⟨c, hread, houtputs⟩ := exists_quake
  have hmem : catalogOutput ∈ c.outputs := by
    rw [houtputs]
    exact List.mem_cons_self ..
  refine ⟨c, hread, hmem, .inl rfl, ⟨_, rfl⟩, fun v => ?_, seismic_iff hread hmem (.inl rfl)⟩
  -- The document has no namespace, so it does not belong to the schema.
  have herror : ∃ fault, convert catalogOutput ⟨0, Text.bytes "<a/>", [], []⟩ = .error fault :=
    ⟨_, rfl⟩
  obtain ⟨fault, hfault⟩ := herror
  rw [hfault]
  nofun

/-- The map is not, though its binding has a schema and the root does not belong to it. -/
theorem undeclared_takes_any_root : ¬ ∀ (registry : Registry) (document : String)
    (c : Configuration) (p : OutputParameter) (o : RunOutput) (v : Value) (schema : String),
    Configuration.read registry document = .ok c → p ∈ c.outputs →
    (p.binding = .quakeml ∨ p.binding = .shakemap) → p.schema? = some schema →
    convert p o = .ok v → (Validator.schema schema).check v = none := by
  intro h
  obtain ⟨c, hread, houtputs⟩ := exists_quake
  have hmem : shakingOutput ∈ c.outputs := by
    rw [houtputs]
    exact List.mem_cons_of_mem _ (List.mem_cons_self ..)
  have hcheck := h .default quakeDocument c shakingOutput
    ⟨0, [], [], [("grid.xml", Text.bytes "<a/>")]⟩ (.shakemap "<a/>") _ hread hmem (.inr rfl) rfl rfl
  have hrejected : ((Validator.schema
      "http://earthquake.usgs.gov/eqcenter/shakemap/xml/schemas/shakemap.xsd").check
      (.shakemap "<a/>")).isSome = true := by decide +kernel
  rw [hcheck] at hrejected
  cases hrejected

end Run

end CachedRun
