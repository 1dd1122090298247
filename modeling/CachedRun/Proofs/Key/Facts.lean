import CachedRun.Proofs.Key.Framing
import CachedRun.Proofs.Result

/-!
# Facts — what a key is made from, as data

`Key.fields` is a program: it walks over the declarations of a configuration, renders the values of
a request on its way and writes fields. To say what two requests with one key have in common one
needs the other side, a description of a request that is not itself a list of fields. That is
`Facts`, and `Request.facts?` reads it off a request.

Two statements tie the sides together. `Request.fields_ok_iff`, which is proved here, says that
`fields` succeeds on the requests that have facts and whose handlers the registry knows, and on no
others, and that its fields are then those of the facts. `Facts.fields_inj`, in
`Proofs/Key/Decoding.lean`, says that no two facts have the same fields.
-/

set_option autoImplicit false

namespace CachedRun

/-! ## Small facts about names and results -/

theorem Binding.key_inj {a b : Binding} (h : a.key = b.key) : a = b := by
  have hk := Binding.ofKey?_key a
  rw [h, Binding.ofKey?_key b] at hk
  exact (Option.some.inj hk).symm

/-- The path of an output that is collected from a file. -/
def Collection.path? : Collection → Option String
  | .file path => some path
  | _ => none

namespace Key

/-- A request, with all that a key is made from. -/
structure Request where
  configuration : Configuration
  environment : Environment
  inputs : Inputs
  /-- The outputs asked for, in ascending order; none at all stand for all of them. -/
  requested : List String

/-- The fields of the key of a request. -/
def Request.fields (q : Request) (registry : Registry) : Except Fault (List Field) :=
  Key.fields registry q.configuration q.environment q.inputs q.requested

/-! ## Facts -/

/-- How a value reaches the program, as far as a key tells: of a file whose path the program is told
it does not tell the path. -/
inductive Placement where
  | argument (flag : Option String)
  | stdin
  /-- As a file whose path is on the command line. -/
  | toldFile (flag : Option String)
  /-- As a file at a path that the program knows. -/
  | knownFile (path : String)
  deriving DecidableEq

/-- What a key holds of the content of a value. -/
inductive Payload where
  /-- The words on the command line. -/
  | words (words : List String)
  /-- The digest of the bytes on standard input. -/
  | digest (digest : Bytes)
  /-- The files, laid out under a fixed name. -/
  | files (files : List (String × Bytes))
  deriving DecidableEq

structure InputFacts where
  id : String
  binding : Binding
  optional : Bool
  placement : Placement
  /-- The binding and the content of the first value, if there is one. -/
  value : Option (Binding × Payload)
  deriving DecidableEq

structure OutputFacts where
  id : String
  binding : Binding
  optional : Bool
  collection : Collection
  deriving DecidableEq

structure Facts where
  process : String
  /-- The identity of the image, or its name if the identity is not known. -/
  image : String
  runnerVersion : Option String
  serviceVersion : Option String
  workingDirectory : String
  command : List String
  flags : List String
  /-- In the order of their declaration. -/
  inputs : List InputFacts
  /-- In the order of their declaration. -/
  outputs : List OutputFacts
  stderrHandler : Option String
  exitValueHandler : Option String
  stdoutHandler : Option String
  requested : List String
  deriving DecidableEq

/-- A generated file that the program is not told about has no placement. -/
def placement? : Delivery → Option Placement
  | .argument flag => some (.argument flag)
  | .stdin => some .stdin
  | .file _ (some argument) => some (.toldFile argument.flag)
  | .file (.fixed path) none => some (.knownFile path)
  | .file .generated none => none

def payload? (delivery : Delivery) (v : Value) : Option Payload :=
  match delivery with
  | .argument flag => (v.arguments flag).toOption.map .words
  | .stdin => v.toBytes.toOption.map fun b => .digest (Digest.sha256 b)
  | .file .. => (v.toFiles fileStem).toOption.map .files

/-- The binding and the payload of a value that may be missing. -/
def content? (delivery : Delivery) : Option Value → Option (Option (Binding × Payload))
  | none => some none
  | some v => (payload? delivery v).map fun payload => some (v.binding, payload)

/-- The facts of an input with its value. -/
def inputFacts? (p : InputParameter) (v : Option Value) : Option InputFacts := do
  let delivery ← p.declaredDelivery
  let placement ← placement? delivery
  let value ← content? delivery v
  return ⟨p.id, p.binding, p.optional, placement, value⟩

def outputFacts? (p : OutputParameter) : Option OutputFacts := do
  let collection ← p.declaredCollection
  return ⟨p.id, p.binding, p.optional, collection⟩

/-- The facts of a request; nothing if some input or output has none. -/
def Request.facts? (q : Request) : Option Facts := do
  let inputs ← q.configuration.inputs.mapM fun p => inputFacts? p (q.inputs.first? p.id)
  let outputs ← q.configuration.outputs.mapM outputFacts?
  return {
    process := q.configuration.id
    image := q.environment.imageId.getD q.configuration.image
    runnerVersion := q.environment.runnerVersion
    serviceVersion := q.environment.serviceVersion
    workingDirectory := q.configuration.workingDirectory
    command := q.configuration.command
    flags := q.configuration.flags
    inputs
    outputs
    stderrHandler := q.configuration.handlerName .stderr
    exitValueHandler := q.configuration.handlerName .exitValue
    stdoutHandler := q.configuration.handlerName .stdout
    requested := q.requested }

theorem inputFacts?_eq_some_iff {p : InputParameter} {v : Option Value} {x : InputFacts} :
    inputFacts? p v = some x ↔ x.id = p.id ∧ x.binding = p.binding ∧ x.optional = p.optional ∧
      ∃ d, p.declaredDelivery = some d ∧ placement? d = some x.placement ∧
        content? d v = some x.value := by
  simp only [inputFacts?, Option.bind_eq_bind, Option.bind_eq_some_iff, pure, Option.some.injEq]
  constructor
  · rintro ⟨d, hd, placement, hplacement, content, hcontent, rfl⟩
    exact ⟨rfl, rfl, rfl, d, hd, hplacement, hcontent⟩
  · rintro ⟨hid, hbinding, hoptional, d, hd, hplacement, hcontent⟩
    exact ⟨d, hd, _, hplacement, _, hcontent, by rw [← hid, ← hbinding, ← hoptional]⟩

/-- A key holds a value exactly if there is one. -/
theorem isSome_of_inputFacts? {p : InputParameter} {v : Option Value} {x : InputFacts}
    (h : inputFacts? p v = some x) : x.value.isSome = v.isSome := by
  obtain ⟨-, -, -, d, -, -, hcontent⟩ := inputFacts?_eq_some_iff.mp h
  cases v with
  | none =>
    rw [← Option.some.inj hcontent]
    rfl
  | some v =>
    obtain ⟨_, _, hvalue⟩ := Option.map_eq_some_iff.mp hcontent
    rw [← hvalue]
    rfl

theorem outputFacts?_eq_some_iff {p : OutputParameter} {x : OutputFacts} :
    outputFacts? p = some x ↔ x.id = p.id ∧ x.binding = p.binding ∧ x.optional = p.optional ∧
      p.declaredCollection = some x.collection := by
  simp only [outputFacts?, Option.bind_eq_bind, Option.bind_eq_some_iff, pure, Option.some.injEq]
  constructor
  · rintro ⟨collection, hc, rfl⟩
    exact ⟨rfl, rfl, rfl, hc⟩
  · rintro ⟨hid, hbinding, hoptional, hc⟩
    exact ⟨_, hc, by rw [← hid, ← hbinding, ← hoptional]⟩

/-- What facts say of their request, part by part. -/
structure Facts.Describes (x : Facts) (q : Request) : Prop where
  process : x.process = q.configuration.id
  image : x.image = q.environment.imageId.getD q.configuration.image
  runnerVersion : x.runnerVersion = q.environment.runnerVersion
  serviceVersion : x.serviceVersion = q.environment.serviceVersion
  workingDirectory : x.workingDirectory = q.configuration.workingDirectory
  command : x.command = q.configuration.command
  flags : x.flags = q.configuration.flags
  inputs : (q.configuration.inputs.mapM fun p => inputFacts? p (q.inputs.first? p.id)) =
    some x.inputs
  outputs : q.configuration.outputs.mapM outputFacts? = some x.outputs
  stderrHandler : x.stderrHandler = q.configuration.handlerName .stderr
  exitValueHandler : x.exitValueHandler = q.configuration.handlerName .exitValue
  stdoutHandler : x.stdoutHandler = q.configuration.handlerName .stdout
  requested : x.requested = q.requested

theorem Request.describes_of_facts? {q : Request} {x : Facts} (h : q.facts? = some x) :
    x.Describes q := by
  simp only [Request.facts?, Option.bind_eq_bind, Option.bind_eq_some_iff] at h
  obtain ⟨inputs, hinputs, outputs, houtputs, h⟩ := h
  cases h
  exact ⟨rfl, rfl, rfl, rfl, rfl, rfl, rfl, hinputs, houtputs, rfl, rfl, rfl, rfl⟩

/-! ## The fields of facts -/

/-- The name of the delivery. -/
def Placement.key : Placement → String
  | .argument _ => "commandLineArgument"
  | .stdin => "stdin"
  | .toldFile _ => "file"
  | .knownFile _ => "file"

/-- What a key says of a delivery beyond its name. -/
def Placement.field : Placement → Field
  | .argument flag => .optional "flag" flag
  | .stdin => .optional "path" none
  | .toldFile flag => .optional "argv.flag" flag
  | .knownFile path => .text "path" path

def Payload.fields : Payload → List Field
  | .words ws => Field.list "argv" ws
  | .digest d => [⟨"stdin.sha256", d⟩]
  | .files fs => fileFields fs

def givenFields : Option (Binding × Payload) → List Field
  | none => [absent]
  | some (binding, payload) => .text "value.binding" binding.key :: payload.fields

def InputFacts.fields (x : InputFacts) : List Field :=
  [.text "input" x.id, .text "binding" x.binding.key, .flag "optional" x.optional,
    .text "mechanism" x.placement.key, x.placement.field] ++ givenFields x.value

def collectionPath (x : Collection) : List Field := x.path?.toList.map (.text "path")

def OutputFacts.fields (x : OutputFacts) : List Field :=
  [.text "output" x.id, .text "binding" x.binding.key, .flag "optional" x.optional,
    .text "mechanism" x.collection.key] ++ collectionPath x.collection

def Facts.fields (x : Facts) : List Field :=
  [.text "layout" layoutVersion, .text "process" x.process, .text "image" x.image,
    .optional "runner.version" x.runnerVersion, .optional "service.version" x.serviceVersion,
    .text "workdir" x.workingDirectory]
    ++ Field.list "command" x.command ++ Field.list "flags" x.flags
    ++ .count "inputs" x.inputs.length :: x.inputs.flatMap InputFacts.fields
    ++ .count "outputs" x.outputs.length :: x.outputs.flatMap OutputFacts.fields
    ++ [.optional "stderr" x.stderrHandler, .optional "exitValue" x.exitValueHandler,
      .optional "stdout" x.stdoutHandler]
    ++ Field.list "requested" x.requested

/-! ## The program writes the fields of the facts -/

open Result

theorem contentFields_ok_iff {delivery : Delivery} {v : Value} {l : List Field} :
    contentFields delivery v = .ok l ↔ ∃ x, payload? delivery v = some x ∧ x.fields = l := by
  cases delivery with
  | argument flag | stdin | file path argument =>
    simp [contentFields, payload?, map_eq_ok_iff, toOption_eq_some_iff, Payload.fields]

theorem valueFields_ok_iff {delivery : Delivery} {v : Option Value} {l : List Field} :
    valueFields delivery v = .ok l ↔ ∃ x, content? delivery v = some x ∧ givenFields x = l := by
  cases v with
  | none => simp [valueFields, content?, givenFields]
  | some v =>
    simp only [valueFields, content?, map_eq_ok_iff, contentFields_ok_iff, Option.map_eq_some_iff]
    constructor
    · rintro ⟨_, ⟨x, hx, rfl⟩, rfl⟩
      exact ⟨_, ⟨x, hx, rfl⟩, rfl⟩
    · rintro ⟨_, ⟨x, hx, rfl⟩, rfl⟩
      exact ⟨_, ⟨x, hx, rfl⟩, rfl⟩

theorem deliveryField_ok_iff {id : String} {delivery : Delivery} {f : Field} :
    deliveryField id delivery = .ok f ↔ ∃ x, placement? delivery = some x ∧ x.field = f := by
  cases delivery with
  | argument flag | stdin => simp [deliveryField, placement?, Placement.field]
  | file path argument =>
    cases argument with
    | some argument => simp [deliveryField, placement?, Placement.field]
    | none => cases path <;> simp [deliveryField, placement?, Placement.field]

theorem key_of_placement? {delivery : Delivery} {x : Placement}
    (h : placement? delivery = some x) : x.key = delivery.key := by
  unfold placement? at h
  split at h <;> simp only [Option.some.injEq, reduceCtorEq] at h <;> subst h <;> rfl

theorem inputFields_ok_iff {p : InputParameter} {v : Option Value} {l : List Field} :
    inputFields p v = .ok l ↔ ∃ x, inputFacts? p v = some x ∧ x.fields = l := by
  cases hd : p.declaredDelivery with
  | none => simp [inputFields, inputFacts?, InputParameter.delivery, hd, bind, Except.bind]
  | some delivery =>
    simp only [inputFields, inputFacts?, InputParameter.delivery, hd, bind_eq_ok_iff,
      deliveryField_ok_iff, valueFields_ok_iff, Option.bind_eq_bind, Option.bind_eq_some_iff,
      pure, Except.pure, Except.ok.injEq, Option.some.injEq, exists_eq_left', InputFacts.fields]
    constructor
    · rintro ⟨_, ⟨x, hx, rfl⟩, _, ⟨y, hy, rfl⟩, rfl⟩
      exact ⟨_, ⟨x, hx, y, hy, rfl⟩, by rw [key_of_placement? hx]⟩
    · rintro ⟨_, ⟨x, hx, y, hy, rfl⟩, rfl⟩
      exact ⟨_, ⟨x, hx, rfl⟩, _, ⟨y, hy, rfl⟩, by rw [key_of_placement? hx]⟩

theorem outputFields_ok_iff {p : OutputParameter} {l : List Field} :
    outputFields p = .ok l ↔ ∃ x, outputFacts? p = some x ∧ x.fields = l := by
  cases hc : p.declaredCollection with
  | none => simp [outputFields, outputFacts?, OutputParameter.collection, hc, bind, Except.bind]
  | some collection =>
    cases collection <;> simp [outputFields, outputFacts?, OutputParameter.collection, hc, bind,
      Except.bind, pure, Except.pure, OutputFacts.fields, collectionPath, Collection.path?]

/-- A registry knows the handlers of a configuration. -/
def Knows (registry : Registry) (c : Configuration) : Prop :=
  ∀ slot name, c.handlerName slot = some name → registry.knows slot name = true

theorem handlerField_ok_iff {registry : Registry} {slot : Slot} {name : Option String} {f : Field} :
    handlerField registry slot name = .ok f ↔
      (∀ n, name = some n → registry.knows slot n = true) ∧ .optional slot.key name = f := by
  cases name with
  | none => simp [handlerField]
  | some n => by_cases hn : registry.knows slot n = true <;> simp [handlerField, hn]

/-- The handlers are folded in one order, and the registry must know each. -/
theorem handlerFields_ok_iff {registry : Registry} {c : Configuration} {l : List Field} :
    ([Slot.stderr, .exitValue, .stdout].mapM fun slot =>
        handlerField registry slot (c.handlerName slot)) = .ok l ↔
      Knows registry c ∧ [.optional "stderr" (c.handlerName .stderr),
        .optional "exitValue" (c.handlerName .exitValue),
        .optional "stdout" (c.handlerName .stdout)] = l := by
  rw [mapM_ok_iff]
  simp only [List.forall₂_cons_left_iff, List.forall₂_nil_left_iff, handlerField_ok_iff, Slot.key]
  constructor
  · rintro ⟨_, _, ⟨he, rfl⟩, ⟨_, _, ⟨hx, rfl⟩, ⟨_, _, ⟨ho, rfl⟩, rfl, rfl⟩, rfl⟩, rfl⟩
    refine ⟨fun slot => ?_, rfl⟩
    cases slot with
    | stderr => exact he
    | exitValue => exact hx
    | stdout => exact ho
  · rintro ⟨hk, rfl⟩
    exact ⟨_, _, ⟨hk .stderr, rfl⟩, ⟨_, _, ⟨hk .exitValue, rfl⟩,
      ⟨_, _, ⟨hk .stdout, rfl⟩, rfl, rfl⟩, rfl⟩, rfl⟩

theorem length_of_mapM_some {α β : Type} {f : α → Option β} {l : List α} {m : List β}
    (h : l.mapM f = some m) : m.length = l.length := (mapM_some_iff.mp h).length_eq.symm

/-- **The key of a request is written from its facts**, and from nothing else: there is one exactly
if the request has facts and the registry knows its handlers. So a key says all that the facts do,
and no more. -/
theorem Request.fields_ok_iff {q : Request} {registry : Registry} {l : List Field} :
    q.fields registry = .ok l ↔
      ∃ x, q.facts? = some x ∧ Knows registry q.configuration ∧ x.fields = l := by
  simp only [Request.fields, Key.fields, bind_eq_ok_iff, mapM_ok_iff_image
    (fun p l => inputFields_ok_iff (p := p) (v := q.inputs.first? p.id) (l := l)),
    mapM_ok_iff_image (fun p l => outputFields_ok_iff (p := p) (l := l)), handlerFields_ok_iff,
    pure, Except.pure, Except.ok.injEq, Request.facts?, Option.bind_eq_bind,
    Option.bind_eq_some_iff, Option.some.injEq]
  constructor
  · rintro ⟨_, ⟨xs, hxs, rfl⟩, _, ⟨ys, hys, rfl⟩, _, ⟨hk, rfl⟩, rfl⟩
    refine ⟨_, ⟨xs, hxs, ys, hys, rfl⟩, hk, ?_⟩
    simp [Facts.fields, processFields, ← length_of_mapM_some hxs, ← length_of_mapM_some hys,
      List.flatMap_def]
  · rintro ⟨_, ⟨xs, hxs, ys, hys, rfl⟩, hk, rfl⟩
    refine ⟨_, ⟨xs, hxs, rfl⟩, _, ⟨ys, hys, rfl⟩, _, ⟨hk, rfl⟩, ?_⟩
    simp [Facts.fields, processFields, ← length_of_mapM_some hxs, ← length_of_mapM_some hys,
      List.flatMap_def]

end Key

end CachedRun
