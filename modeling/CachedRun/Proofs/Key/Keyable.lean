import CachedRun.Configuration.Document
import CachedRun.Proofs.Key.Facts
import CachedRun.Proofs.Run.Assembly

/-!
# Keyable — a configuration that was read has keys

A configuration can be built by hand, and then a key may fail for it: an input that is delivered
nowhere, a generated file that nobody is told of, a handler that the registry does not know. A
document cannot say any of that. What it does say is `Configuration.IsDeclared`:

- every input has a delivery that goes with its binding (`Delivery.Suits`);
- every output has a collection;
- the registry knows every handler, whatever has been registered.

For such a configuration only a value can stand in the way of a key, and only by a conversion. If
the values pass the checks of their inputs there are two ways left, and `Value.flaw?` is both of
them: a layer without its main file, and a document that has no canonical form.
-/

set_option autoImplicit false

namespace CachedRun

open Result

/-! ## What a document declares

Of all that reading a document checks, this is what a key depends on: deliveries that suit their
bindings, collections, and handlers that the registry knows. -/

/-- The deliveries that go with a binding. What is put on the command line has a text of its own,
and the path of a generated file is always put there. -/
inductive Delivery.Suits (binding : Binding) : Delivery → Prop
  | argument (flag : Option String) (h : binding.isLiteral = true ∨ binding = .bbox) :
    Suits binding (.argument flag)
  | stdin : Suits binding .stdin
  | toldFile (path : FilePath) (argument : PathArgument) : Suits binding (.file path (some argument))
  | knownFile (path : String) : Suits binding (.file (.fixed path) none)

/-- A configuration in which nothing is missing, given a registry. -/
structure Configuration.IsDeclared (registry : Registry) (c : Configuration) : Prop where
  deliveries : ∀ p ∈ c.inputs, ∃ delivery, p.declaredDelivery = some delivery ∧
    delivery.Suits p.binding
  collections : ∀ p ∈ c.outputs, ∃ collection, p.declaredCollection = some collection
  handlers : Key.Knows registry c

namespace Configuration

theorem suits_of_readDelivery {o : Object} {name : DeliveryName} {binding : Binding}
    {flag : Option String} {delivery : Delivery}
    (h : readDelivery o name binding flag = .ok delivery) : delivery.Suits binding := by
  cases name with
  | argument =>
    rw [readDelivery] at h
    -- An argument carries text itself, and any other value is told by the path of a file.
    split at h
    · rename_i htext
      cases h
      rw [Bool.or_eq_true, decide_eq_true_iff] at htext
      exact .argument flag htext
    · cases h
      exact .toldFile .generated ⟨flag⟩
  | stdin =>
    cases h
    exact .stdin
  | file =>
    obtain ⟨path, -, h⟩ := bind_eq_ok_iff.mp h
    obtain ⟨pass, -, h⟩ := bind_eq_ok_iff.mp h
    cases h
    split
    · exact .toldFile (.fixed path) ⟨flag⟩
    · exact .knownFile path

/-- What an input has from the fields that it was read from. -/
structure InputReadsFrom (o : Object) (p : InputParameter) : Prop where
  allowed : literalsElement o "allowed" = .ok p.allowed
  delivery : ∃ delivery, p.declaredDelivery = some delivery ∧ delivery.Suits p.binding

theorem readsFrom_of_readInput {o : Object} {p : InputParameter} (h : readInput o = .ok p) :
    InputReadsFrom o p := by
  simp only [readInput, bind_eq_ok_iff] at h
  obtain ⟨id, -, useAs, -, binding, -, h⟩ := h
  split at h
  · cases h
  · split at h
    · simp only [bind_eq_ok_iff] at h
      obtain ⟨_, hnever, -⟩ := h
      cases hnever
    · simp only [bind_eq_ok_iff] at h
      obtain ⟨flag, -, optional, -, summary, -, default, -, allowed, hallowed, crs, -, schema, -,
        format, -, delivery, hdelivery, h⟩ := h
      cases h
      exact ⟨hallowed, delivery, rfl, suits_of_readDelivery hdelivery⟩

theorem key_of_readCollection {o : Object} {readFrom : String} {name : CollectionName}
    {collection : Collection} (hname : collectionName? readFrom = some name)
    (h : readCollection o name = .ok collection) : collection.key = readFrom := by
  unfold collectionName? at hname
  split_ifs at hname with hstdout hstderr hexitValue hfiles <;> cases hname
  · cases h
    exact hstdout.symm
  · cases h
    exact hstderr.symm
  · cases h
    exact hexitValue.symm
  · obtain ⟨path, -, rfl⟩ := map_eq_ok_iff.mp h
    exact hfiles.symm

/-- The binding of an output is one of those that its collection gives. -/
theorem collection_of_readOutput {o : Object} {p : OutputParameter} (h : readOutput o = .ok p) :
    ∃ collection, p.declaredCollection = some collection ∧
      p.binding ∈ outputBindings collection.key := by
  simp only [readOutput, bind_eq_ok_iff] at h
  obtain ⟨id, -, readFrom, -, binding, -, h⟩ := h
  split at h
  · cases h
  · rename_i name hname
    split at h
    · simp only [bind_eq_ok_iff] at h
      obtain ⟨_, hnever, -⟩ := h
      cases hnever
    · rename_i hbinding
      simp only [bind_eq_ok_iff] at h
      obtain ⟨optional, -, summary, -, schema, -, format, -, collection, hcollection, h⟩ := h
      cases h
      rw [not_not, ← key_of_readCollection hname hcollection] at hbinding
      exact ⟨collection, rfl, hbinding⟩

theorem exists_read_of_mem {α : Type} {o : Object} {key : String} {read : Object → Except Flaw α}
    {l : List α} (h : objectListKey o key read = .ok l) {a : α} (ha : a ∈ l) :
    ∃ fields, read fields = .ok a := by
  obtain ⟨items, -, hitems⟩ := bind_eq_ok_iff.mp h
  obtain ⟨item, -, hitem⟩ := mem_of_mapM_ok hitems ha
  split at hitem
  · exact ⟨_, hitem⟩
  · cases hitem

/-- A handler that was read goes by a name that its table has. -/
theorem contains_of_readHandler {κ : Type} {o : Object} {key : String}
    {table : Dict (Option κ)} {slot : Slot} {handler : Option (Handler κ)}
    (h : readHandler o key (Registry.create table slot) = .ok handler) {name : String}
    (hname : handler.map (·.name) = some name) : table.contains name = true := by
  obtain ⟨given, -, h⟩ := bind_eq_ok_iff.mp h
  cases given with
  | none =>
    cases h
    cases hname
  | some given =>
    rw [mapError_eq_ok_iff, Registry.create] at h
    split at h
    · rename_i check hfound
      cases h
      cases hname
      rw [Dict.contains, hfound]
      rfl
    · cases h
      cases hname
    · cases h

/-- The parts of a configuration that have parts of their own, read from the fields of a document. -/
structure ReadsFrom (registry : Registry) (o : Object) (c : Configuration) : Prop where
  inputs : objectListKey o "input" readInput = .ok c.inputs
  outputs : objectListKey o "output" readOutput = .ok c.outputs
  stderr : readHandler o "stderrHandler" registry.stderrHandler = .ok c.stderrHandler
  exitValue : readHandler o "exitValueHandler" registry.exitValueHandler = .ok c.exitValueHandler
  stdout : readHandler o "stdoutHandler" registry.stdoutHandler = .ok c.stdoutHandler

theorem readsFrom_of_ofObject {registry : Registry} {o : Object} {c : Configuration}
    (h : ofObject registry o = .ok c) : ReadsFrom registry o c := by
  simp only [ofObject, orFault, bind_eq_ok_iff, mapError_eq_ok_iff] at h
  obtain ⟨id, -, summary, -, image, -, _, -, workingDirectory, -, line, -, command, -, flags, -,
    inputs, hinputs, outputs, houtputs, stderrHandler, hstderr, exitValueHandler, hexitValue,
    stdoutHandler, hstdout, h⟩ := h
  cases h
  exact ⟨hinputs, houtputs, hstderr, hexitValue, hstdout⟩

/-- The fields of a document. -/
def fields? (document : String) : Option Object :=
  match (Json.read? document).map Json.canonical with
  | some (.object fields) => some fields
  | _ => none

/-- **A configuration that was read** was read part by part from the fields of its document. -/
theorem exists_fields {registry : Registry} {document : String} {c : Configuration}
    (h : read registry document = .ok c) :
    ∃ o, fields? document = some o ∧ ReadsFrom registry o c := by
  unfold read at h
  split at h
  · rename_i j hj
    unfold ofJson at h
    split at h
    · rename_i fields hfields
      exact ⟨fields, by rw [fields?, hj, Option.map_some, hfields], readsFrom_of_ofObject h⟩
    · cases h
  · cases h

theorem exists_readsFrom {registry : Registry} {document : String} {c : Configuration}
    (h : read registry document = .ok c) : ∃ o, ReadsFrom registry o c :=
  (exists_fields h).imp fun _ hparts => hparts.2

theorem ReadsFrom.collection {registry : Registry} {o : Object} {c : Configuration}
    (h : ReadsFrom registry o c) {p : OutputParameter} (hp : p ∈ c.outputs) :
    ∃ collection, p.declaredCollection = some collection ∧
      p.binding ∈ outputBindings collection.key := by
  obtain ⟨fields, hread⟩ := exists_read_of_mem h.outputs hp
  exact collection_of_readOutput hread

/-- **What a document says is complete**, with any registry that it was read with. -/
theorem isDeclared_of_read {registry : Registry} {document : String} {c : Configuration}
    (h : read registry document = .ok c) : c.IsDeclared registry := by
  obtain ⟨o, hparts⟩ := exists_readsFrom h
  constructor
  · intro p hp
    obtain ⟨fields, hread⟩ := exists_read_of_mem hparts.inputs hp
    exact (readsFrom_of_readInput hread).delivery
  · intro p hp
    obtain ⟨collection, hcollection, -⟩ := hparts.collection hp
    exact ⟨collection, hcollection⟩
  · intro slot name hname
    cases slot with
    | stderr => exact contains_of_readHandler hparts.stderr hname
    | exitValue => exact contains_of_readHandler hparts.exitValue hname
    | stdout => exact contains_of_readHandler hparts.stdout hname

end Configuration

/-! ## What may be wrong with a value

A value of the right binding is converted without fault, but for two kinds of value, and what is
wrong with these can be seen at the value. -/

/-- A value that passes the checks is of the binding that the input declares. -/
theorem InputParameter.binding_of_validate {p : InputParameter} {v : Value}
    (h : p.validate v = .ok ()) : v.binding = p.binding := by
  unfold validate at h
  split at h
  · cases h
  · rename_i hsame
    exact not_ne_iff.mp hsame

namespace Value

/-- The fault of a document that has no canonical form. -/
def documentFlaw? (binding : Binding) (document : String) : Option Fault :=
  match Xml.canonical binding.isValidatedXml document with
  | .ok _ => none
  | .error flaw => some (.cannotConvert binding flaw.message)

/-- The fault of a value that cannot be written: of a layer without its main file, and of a document
that has no canonical form. -/
def flaw? : Value → Option Fault
  | .shapefile layer =>
    if layer.main?.isNone then some (.cannotConvert .shapefile "shapefile without .shp part")
    else none
  | v => v.document?.bind (documentFlaw? v.binding)

theorem mainFile_eq_error_iff {layer : Shapefile} {fault : Fault} :
    mainFile layer = .error fault ↔ (Value.shapefile layer).flaw? = some fault := by
  rw [mainFile, flaw?]
  cases layer.main? with
  | none => simp
  | some content => simp

theorem canonicalDocument_eq_error_iff {binding : Binding} {document : String} {fault : Fault} :
    canonicalDocument binding document = .error fault ↔
      documentFlaw? binding document = some fault := by
  rw [canonicalDocument, documentFlaw?]
  cases Xml.canonical binding.isValidatedXml document with
  | ok text => simp [Except.mapError]
  | error flaw => simp [Except.mapError]

theorem toBytes_eq_error_iff {v : Value} {fault : Fault} :
    v.toBytes = .error fault ↔ v.flaw? = some fault := by
  cases v with
  | shapefile layer => exact mainFile_eq_error_iff
  | xml s | quakeml s | nrml s | shakemap s =>
    exact map_eq_error_iff.trans canonicalDocument_eq_error_iff
  | _ => simp [toBytes, text, flaw?, document?, Except.map]

theorem toFiles_eq_error_iff {v : Value} {path : String} {fault : Fault} :
    v.toFiles path = .error fault ↔ v.flaw? = some fault := by
  by_cases hlayer : v.binding = .shapefile
  · obtain ⟨layer, rfl⟩ := eq_shapefile hlayer
    rw [← mainFile_eq_error_iff, toFiles, bind_eq_error_iff]
    constructor
    · rintro (hmain | ⟨_, -, hnever⟩)
      · exact hmain
      · cases hnever
    · exact .inl
  · rw [toFiles_of_binding_ne hlayer, map_eq_error_iff, toBytes_eq_error_iff]

/-- A literal and a box are put on the command line without fail, and nothing is wrong with them. -/
theorem arguments_eq_error_iff {v : Value} {flag : Option String} {fault : Fault}
    (h : v.binding.isLiteral = true ∨ v.binding = .bbox) :
    v.arguments flag = .error fault ↔ v.flaw? = some fault := by
  have hflaw : v.flaw? = none := by
    cases v <;> first | rfl | simp [binding, Binding.isLiteral] at h
  have hwords : ∃ words, v.arguments flag = .ok words := by
    cases v <;> cases flag <;> first | exact ⟨_, rfl⟩ | simp [binding, Binding.isLiteral] at h
  obtain ⟨words, hwords⟩ := hwords
  simp [hflaw, hwords]

/-- Whatever goes wrong with a value is a conversion. -/
theorem conversion_of_text {v : Value} {fault : Fault} (h : v.text = .error fault) :
    ∃ binding reason, fault = .conversion binding reason := by
  cases v with
  | xml s | quakeml s | nrml s | shakemap s =>
    obtain ⟨flaw, -, rfl⟩ := mapError_eq_error_iff.mp h
    exact ⟨_, _, rfl⟩
  | geotiff b | file b | shapefile layer =>
    cases h
    exact ⟨_, _, rfl⟩
  | _ => cases h

theorem conversion_of_flaw? {v : Value} {fault : Fault} (h : v.flaw? = some fault) :
    ∃ binding reason, fault = .conversion binding reason := by
  unfold flaw? at h
  split at h
  · split at h
    · cases h
      exact ⟨_, _, rfl⟩
    · cases h
  · obtain ⟨document, -, h⟩ := Option.bind_eq_some_iff.mp h
    unfold documentFlaw? at h
    split at h
    · cases h
    · cases h
      exact ⟨_, _, rfl⟩

end Value

/-! ## The key -/

namespace Key

theorem conversion_of_contentFields {delivery : Delivery} {v : Value} {fault : Fault}
    (h : contentFields delivery v = .error fault) :
    ∃ binding reason, fault = .conversion binding reason := by
  cases delivery with
  | argument flag =>
    have hwords := map_eq_error_iff.mp h
    unfold Value.arguments at hwords
    split at hwords
    · cases hwords
    · cases hwords
    · exact Value.conversion_of_text (map_eq_error_iff.mp hwords)
  | stdin => exact Value.conversion_of_flaw? (Value.toBytes_eq_error_iff.mp (map_eq_error_iff.mp h))
  | file path argument =>
    exact Value.conversion_of_flaw? (Value.toFiles_eq_error_iff.mp (map_eq_error_iff.mp h))

/-- A value of the binding that was declared fails to be delivered exactly if it is flawed. -/
theorem contentFields_eq_error_iff {delivery : Delivery} {v : Value} {fault : Fault}
    (h : delivery.Suits v.binding) :
    contentFields delivery v = .error fault ↔ v.flaw? = some fault := by
  cases h with
  | argument flag htext => exact map_eq_error_iff.trans (Value.arguments_eq_error_iff htext)
  | stdin => exact map_eq_error_iff.trans Value.toBytes_eq_error_iff
  | toldFile | knownFile => exact map_eq_error_iff.trans Value.toFiles_eq_error_iff

/-- Of an input that is declared only the value can fail. -/
theorem inputFields_eq_error_iff {p : InputParameter} {delivery : Delivery} {v : Option Value}
    {fault : Fault} (hdelivery : p.declaredDelivery = some delivery)
    (hsuits : delivery.Suits p.binding) :
    inputFields p v = .error fault ↔ ∃ w, v = some w ∧ contentFields delivery w = .error fault := by
  have hfield : ∃ field, deliveryField p.id delivery = .ok field := by
    cases hsuits <;> exact ⟨_, rfl⟩
  obtain ⟨field, hfield⟩ := hfield
  have hdeclared : p.delivery = .ok delivery := by
    rw [InputParameter.delivery, hdelivery]
  rw [inputFields, hdeclared]
  cases v with
  | none => simp [hfield, valueFields, bind, Except.bind, pure, Except.pure]
  | some w =>
    cases hcontent : contentFields delivery w with
    | ok l => simp [hfield, valueFields, hcontent, bind, Except.bind, pure, Except.pure, Except.map]
    | error e => simp [hfield, valueFields, hcontent, bind, Except.bind, Except.map]

section

variable {registry : Registry} {c : Configuration} {environment : Environment} {inputs : Inputs}
  {requested : List String} {fault : Fault}

/-- A key of a configuration that is declared fails where an input fails. -/
theorem ofRequest_eq_error_iff (hc : c.IsDeclared registry) :
    ofRequest registry c environment inputs requested = .error fault ↔
      (c.inputs.mapM fun p => inputFields p (inputs.first? p.id)) = .error fault := by
  -- The outputs and the handlers come after the inputs and cannot fail.
  have houtputs : ∃ parts, c.outputs.mapM outputFields = .ok parts := by
    cases hparts : c.outputs.mapM outputFields with
    | ok parts => exact ⟨parts, rfl⟩
    | error e =>
      obtain ⟨p, hp, hfields⟩ := mem_of_mapM_error hparts
      obtain ⟨collection, hcollection⟩ := hc.collections p hp
      have hsome : outputFacts? p = some ⟨p.id, p.binding, p.optional, collection⟩ :=
        outputFacts?_eq_some_iff.mpr ⟨rfl, rfl, rfl, hcollection⟩
      rw [outputFields_ok_iff.mpr ⟨_, hsome, rfl⟩] at hfields
      cases hfields
  obtain ⟨parts, hparts⟩ := houtputs
  have hhandlers := handlerFields_ok_iff.mpr ⟨hc.handlers, rfl⟩
  rw [ofRequest, map_eq_error_iff, fields, bind_eq_error_iff]
  constructor
  · rintro (hfault | ⟨_, -, hnever⟩)
    · exact hfault
    · rw [hparts, hhandlers] at hnever
      cases hnever
  · exact .inl

/-- **A configuration that was read has keys.** Nothing that is declared stands in the way of a key:
if there is none, a value cannot be converted. And if the values that count pass the checks of their
inputs, there is a key unless one of them is a layer without its main file or a document without a
canonical form; the fault is that of the first input with such a value. -/
theorem keyable_of_read {document : String} (h : Configuration.read registry document = .ok c)
    (environment : Environment) (inputs : Inputs) (requested : List String) :
    (∀ fault, ofRequest registry c environment inputs requested = .error fault →
      ∃ binding reason, fault = .conversion binding reason) ∧
    ((∀ p ∈ c.inputs, ∀ v, inputs.first? p.id = some v → p.validate v = .ok ()) →
      ∀ fault, ofRequest registry c environment inputs requested = .error fault ↔
        c.inputs.findSome? (fun p => (inputs.first? p.id).bind Value.flaw?) = some fault) := by
  have hc := Configuration.isDeclared_of_read h
  constructor
  · intro fault hfault
    rw [ofRequest_eq_error_iff hc] at hfault
    obtain ⟨p, hp, hfields⟩ := mem_of_mapM_error hfault
    obtain ⟨delivery, hdelivery, hsuits⟩ := hc.deliveries p hp
    obtain ⟨v, -, hcontent⟩ := (inputFields_eq_error_iff hdelivery hsuits).mp hfields
    exact conversion_of_contentFields hcontent
  · intro hvalid fault
    rw [ofRequest_eq_error_iff hc]
    -- The fields are made input by input, so the first flaw is the fault.
    apply mapM_eq_error_iff
    intro p hp fault
    obtain ⟨delivery, hdelivery, hsuits⟩ := hc.deliveries p hp
    rw [inputFields_eq_error_iff hdelivery hsuits, Option.bind_eq_some_iff]
    apply exists_congr
    intro v
    apply and_congr_right
    intro hv
    -- A value that passed its check has the binding of its input.
    rw [← InputParameter.binding_of_validate (hvalid p hp v hv)] at hsuits
    exact contentFields_eq_error_iff hsuits

/-! A survey takes a plan, and the plan it is given breaks off. -/

def surveyDocument : String :=
  "\x7b\"title\":\"survey\",\"imageId\":\"survey\",\"workingDirectory\":\"/\"," ++
  "\"commandToExecute\":\"survey\",\"input\":[" ++
  "\x7b\"title\":\"plan\",\"useAs\":\"commandLineArgument\",\"type\":\"xml\"\x7d]\x7d"

/-- The one input of a survey. -/
def surveyPlan : InputParameter :=
  ⟨"plan", none, .xml, false, none, [], [], none, none, some (.file .generated (some ⟨none⟩))⟩

theorem exists_survey : ∃ c, Configuration.read .default surveyDocument = .ok c ∧
    c.inputs = [surveyPlan] := map_eq_ok_iff.mp (by decide +kernel)

/-- Only the first of two values counts. -/
def surveyInputs : Inputs := [("plan", [.xml "<plan>", .xml "<plan/>"])]

theorem keyable_survey : ∃ c, Configuration.read .default surveyDocument = .ok c ∧
    (∀ p ∈ c.inputs, ∀ v, surveyInputs.first? p.id = some v → p.validate v = .ok ()) ∧
    ofRequest .default c ⟨none, none, none⟩ surveyInputs [] =
      .error (.conversion "xml" "unclosed element") := by
  obtain ⟨c, hread, hinputs⟩ := exists_survey
  have hvalid : ∀ p ∈ c.inputs, ∀ v, surveyInputs.first? p.id = some v →
      p.validate v = .ok () := by
    rw [hinputs, List.forall_mem_singleton]
    intro v hv
    cases hv
    rfl
  obtain ⟨-, hexact⟩ := keyable_of_read hread ⟨none, none, none⟩ surveyInputs []
  refine ⟨c, hread, hvalid, (hexact hvalid _).mpr ?_⟩
  rw [hinputs]
  decide +kernel

end

end Key

end CachedRun
