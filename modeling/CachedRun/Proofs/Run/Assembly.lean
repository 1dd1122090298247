import CachedRun.Proofs.Files
import CachedRun.Proofs.Key.Decoding
import CachedRun.Run

/-!
# Assembly — requests with one key are one run

`Run.assemble` and `Key.fields` walk over the same inputs and do not write the same things. A key
lays files out under the name `input`, whatever they are called in the run; it holds a digest where
the run has the bytes of standard input; and where the program is told a path, the key does not hold
it. `assemble_eq_of_stream_eq` says that this is all that is left out: **two requests with one
stream are assembled to one run, up to the image**, if the paths that the program is told agree and
SHA-256 keeps the contents of standard input apart.

The two requests share their facts, so the walks are compared through the facts: `inputPart_agree`
is the step for one input, and `inputParts_agree` goes down both lists.
-/

set_option autoImplicit false

namespace CachedRun

open Key Result

/-! ## What a key leaves out -/

/-- SHA-256 keeps the members of a set apart. -/
def Digest.CollisionFree (S : Bytes → Prop) : Prop :=
  ∀ x y, S x → S y → Digest.sha256 x = Digest.sha256 y → x = y

theorem Digest.CollisionFree.mono {S T : Bytes → Prop} (h : CollisionFree T)
    (hST : ∀ b, S b → T b) : CollisionFree S :=
  fun x y hx hy => h x y (hST x hx) (hST y hy)

/-- An input is delivered on standard input and its value has these bytes. -/
def Run.Sent (p : InputParameter) (v : Option Value) (b : Bytes) : Prop :=
  p.declaredDelivery = some .stdin ∧ ∃ w, v = some w ∧ w.toBytes = .ok b

/-- A request delivers bytes on standard input. -/
def Key.Request.Sends (q : Request) (b : Bytes) : Prop :=
  ∃ p ∈ q.configuration.inputs, Run.Sent p (q.inputs.first? p.id) b

namespace Run

/-- The path that the program is told for an input, if it is told one. -/
def toldPath? (unique : String) (p : InputParameter) (v : Option Value) : Option String :=
  match p.declaredDelivery, v with
  | some (.file path (some _)), some _ => some (path.resolve p.binding unique)
  | _, _ => none

/-- The told paths of inputs, place for place. -/
def toldPaths (unique : Nat → String) (inputs : Inputs) :
    Nat → List InputParameter → List (Option String)
  | _, [] => []
  | place, p :: rest =>
    toldPath? (unique place) p (inputs.first? p.id) :: toldPaths unique inputs (place + 1) rest

end Run

/-- The told paths of a request. -/
def Key.Request.toldPaths (q : Request) (unique : Nat → String) : List (Option String) :=
  Run.toldPaths unique q.inputs 0 q.configuration.inputs

/-- The run of a request. -/
def Key.Request.assemble (q : Request) (unique : Nat → String) : Except Fault RunRequest :=
  Run.assemble unique q.configuration q.inputs (Run.selected q.configuration q.requested)

/-! ## Files under another name

Values are folded with their files under a fixed name, and written under the path of the delivery.
The contents are the same, and the names of the parts go with the path. -/

/-- The files under the name `input` decide the files under any name. -/
theorem Value.toFiles_agree {v w : Value} {files : List (String × Bytes)}
    (hbinding : v.binding = w.binding) (hv : v.toFiles fileStem = .ok files)
    (hw : w.toFiles fileStem = .ok files) (path : String) :
    ∃ moved, v.toFiles path = .ok moved ∧ w.toFiles path = .ok moved := by
  by_cases hs : v.binding = .shapefile
  · obtain ⟨layer, rfl⟩ := Value.eq_shapefile hs
    obtain ⟨layer', rfl⟩ := Value.eq_shapefile (hbinding.symm.trans hs)
    obtain ⟨hmain, rfl⟩ := Value.toFiles_shapefile_eq_ok_iff.mp hv
    obtain ⟨-, hparts⟩ := Value.toFiles_shapefile_eq_ok_iff.mp hw
    -- The names under `input` give the extensions back, so the layers are one.
    have hsame : layer'.parts = layer.parts := by
      refine List.map_injective_iff.mpr ?_ hparts
      rintro ⟨e, b⟩ ⟨e', b'⟩ heq
      rw [Prod.mk.injEq] at heq ⊢
      exact ⟨sidecarPath_injective fileStem heq.1, heq.2⟩
    obtain ⟨parts⟩ := layer
    obtain ⟨parts'⟩ := layer'
    cases hsame
    exact ⟨_, Value.toFiles_shapefile_eq_ok_iff.mpr ⟨hmain, rfl⟩,
      Value.toFiles_shapefile_eq_ok_iff.mpr ⟨hmain, rfl⟩⟩
  · rw [Value.toFiles_of_binding_ne hs, map_eq_ok_iff] at hv
    rw [Value.toFiles_of_binding_ne (hbinding ▸ hs), map_eq_ok_iff] at hw
    obtain ⟨b, hb, rfl⟩ := hv
    obtain ⟨b', hb', heq⟩ := hw
    simp only [List.cons.injEq, Prod.mk.injEq, true_and, and_true] at heq
    rw [heq] at hb'
    refine ⟨[(path, b)], ?_, ?_⟩
    · rw [Value.toFiles_of_binding_ne hs, hb]
      rfl
    · rw [Value.toFiles_of_binding_ne (hbinding ▸ hs), hb']
      rfl

/-! ## One input

The placement of a delivery is what a key holds of it, and the payload is what it holds of the
value. Both together make the part of a run. -/

namespace Run

/-- A placement is that of one delivery, up to the path of a file whose path the program is told. -/
theorem delivery_of_placement? {d : Delivery} {x : Placement} (h : placement? d = some x) :
    match x with
    | .argument flag => d = .argument flag
    | .stdin => d = .stdin
    | .toldFile flag => ∃ path, d = .file path (some ⟨flag⟩)
    | .knownFile path => d = .file (.fixed path) none := by
  unfold placement? at h
  split at h <;> simp only [Option.some.injEq, reduceCtorEq] at h <;> subst h
  · rfl
  · rfl
  · exact ⟨_, rfl⟩
  · rfl

/-- Two deliveries of one placement do the same with values of one payload, if the program is told
the same path. Content that goes to the standard input is folded by its digest, and there the two
digests must not collide. -/
theorem partOf_agree {binding : Binding} {d d' : Delivery} {u u' : String} {v w : Value}
    {placement : Placement} {payload : Payload}
    (hd : placement? d = some placement) (hd' : placement? d' = some placement)
    (hbinding : v.binding = w.binding)
    (hv : payload? d v = some payload) (hw : payload? d' w = some payload)
    (hpath : ∀ path path' argument argument', d = .file path (some argument) →
      d' = .file path' (some argument') → path.resolve binding u = path'.resolve binding u')
    (hsent : ∀ b b', d = .stdin → d' = .stdin → v.toBytes = .ok b → w.toBytes = .ok b' →
      Digest.sha256 b = Digest.sha256 b' → b = b') :
    ∃ part, partOf binding d u v = .ok part ∧ partOf binding d' u' w = .ok part := by
  have h := delivery_of_placement? hd
  have h' := delivery_of_placement? hd'
  -- Words and files are told by the payload, the standard input by its digest alone. There the
  -- digests have to be free of a collision.
  cases placement with
  | argument flag =>
    obtain rfl : d = .argument flag := h
    obtain rfl : d' = .argument flag := h'
    simp only [payload?, Option.map_eq_some_iff, toOption_eq_some_iff] at hv hw
    obtain ⟨words, hv, rfl⟩ := hv
    obtain ⟨words', hw, heq⟩ := hw
    rw [Payload.words.injEq] at heq
    exact ⟨⟨words, [], []⟩, by rw [partOf, hv]; rfl, by rw [partOf, hw, heq]; rfl⟩
  | stdin =>
    obtain rfl : d = .stdin := h
    obtain rfl : d' = .stdin := h'
    simp only [payload?, Option.map_eq_some_iff, toOption_eq_some_iff] at hv hw
    obtain ⟨b, hv, rfl⟩ := hv
    obtain ⟨b', hw, heq⟩ := hw
    rw [Payload.digest.injEq] at heq
    have hsame := hsent b b' rfl rfl hv hw heq.symm
    exact ⟨⟨[], b, []⟩, by rw [partOf, hv]; rfl, by rw [partOf, hw, hsame]; rfl⟩
  | toldFile flag =>
    obtain ⟨path, rfl⟩ := h
    obtain ⟨path', rfl⟩ := h'
    simp only [payload?, Option.map_eq_some_iff, toOption_eq_some_iff] at hv hw
    obtain ⟨files, hv, rfl⟩ := hv
    obtain ⟨files', hw, heq⟩ := hw
    rw [Payload.files.injEq] at heq
    rw [heq] at hw
    have htold := hpath path path' ⟨flag⟩ ⟨flag⟩ rfl rfl
    obtain ⟨moved, hmv, hmw⟩ := Value.toFiles_agree hbinding hv hw (path.resolve binding u)
    refine ⟨⟨Value.pathArguments (path.resolve binding u) flag, [], moved⟩, ?_, ?_⟩
    · simp only [partOf, hmv]
      rfl
    · simp only [partOf, ← htold, hmw]
      rfl
  | knownFile path =>
    obtain rfl : d = .file (.fixed path) none := h
    obtain rfl : d' = .file (.fixed path) none := h'
    simp only [payload?, Option.map_eq_some_iff, toOption_eq_some_iff] at hv hw
    obtain ⟨files, hv, rfl⟩ := hv
    obtain ⟨files', hw, heq⟩ := hw
    rw [Payload.files.injEq] at heq
    rw [heq] at hw
    obtain ⟨moved, hmv, hmw⟩ := Value.toFiles_agree hbinding hv hw path
    refine ⟨⟨[], [], moved⟩, ?_, ?_⟩
    · simp only [partOf, FilePath.resolve, hmv]
      rfl
    · simp only [partOf, FilePath.resolve, hmw]
      rfl

theorem inputPart_agree {u u' : String} {p p' : InputParameter} {v v' : Option Value}
    {x : InputFacts} (hp : inputFacts? p v = some x) (hp' : inputFacts? p' v' = some x)
    (hpath : toldPath? u p v = toldPath? u' p' v')
    (hsent : ∀ b b', Sent p v b → Sent p' v' b' → Digest.sha256 b = Digest.sha256 b' → b = b') :
    ∃ part, inputPart u p v = .ok part ∧ inputPart u' p' v' = .ok part := by
  obtain ⟨-, hbinding, -, d, hd, hplacement, hcontent⟩ := inputFacts?_eq_some_iff.mp hp
  obtain ⟨-, hbinding', -, d', hd', hplacement', hcontent'⟩ := inputFacts?_eq_some_iff.mp hp'
  have hsame : p.binding = p'.binding := hbinding.symm.trans hbinding'
  have hsome : v.isSome = v'.isSome :=
    (isSome_of_inputFacts? hp).symm.trans (isSome_of_inputFacts? hp')
  -- Both inputs have a value, or neither has one.
  cases v <;> cases v'
  case none.none =>
    refine ⟨.nothing, ?_, ?_⟩
    · simp only [inputPart, InputParameter.delivery, hd]
      rfl
    · simp only [inputPart, InputParameter.delivery, hd']
      rfl
  case some.some v w =>
    obtain ⟨payload, hv, hvalue⟩ := Option.map_eq_some_iff.mp hcontent
    obtain ⟨payload', hw, hvalue'⟩ := Option.map_eq_some_iff.mp hcontent'
    rw [← hvalue', Option.some.injEq, Prod.mk.injEq] at hvalue
    obtain ⟨hvw, rfl⟩ := hvalue
    obtain ⟨part, hpart, hpart'⟩ := partOf_agree hplacement hplacement' hvw hv hw
      (fun path path' argument argument' h h' => by
        subst h h'
        simpa [toldPath?, hd, hd', hsame] using hpath)
      (fun b b' h h' hb hb' => hsent b b' ⟨h ▸ hd, v, rfl, hb⟩ ⟨h' ▸ hd', w, rfl, hb'⟩)
    refine ⟨part, ?_, ?_⟩
    · simp only [inputPart, InputParameter.delivery, hd, hsame]
      exact hpart
    · simp only [inputPart, InputParameter.delivery, hd']
      exact hpart'
  all_goals cases hsome

/-! ## All inputs, and the outputs

Two walks over two lists of inputs of one description keep step, and each counts the same places
for its generated names. -/

/-- The walks over the inputs of two requests keep step. -/
theorem inputParts_agree {u u' : Nat → String} {i i' : Inputs} {ps ps' : List InputParameter}
    {xs : List InputFacts} {place : Nat}
    (hxs : List.Forall₂ (fun p x => inputFacts? p (i.first? p.id) = some x) ps xs)
    (hxs' : List.Forall₂ (fun p x => inputFacts? p (i'.first? p.id) = some x) ps' xs)
    (hpaths : toldPaths u i place ps = toldPaths u' i' place ps')
    (hsent : ∀ p ∈ ps, ∀ p' ∈ ps', ∀ b b', Sent p (i.first? p.id) b →
      Sent p' (i'.first? p'.id) b' → Digest.sha256 b = Digest.sha256 b' → b = b') :
    ∃ parts, inputParts u i place ps = .ok parts ∧ inputParts u' i' place ps' = .ok parts := by
  induction hxs generalizing ps' place with
  | nil =>
    cases hxs'
    exact ⟨[], rfl, rfl⟩
  | @cons p x ps xs hx _ ih =>
    obtain ⟨p', ps', hx', hrest, rfl⟩ := List.forall₂_cons_right_iff.mp hxs'
    simp only [toldPaths, List.cons.injEq] at hpaths
    obtain ⟨part, hpart, hpart'⟩ := inputPart_agree hx hx' hpaths.1
      (hsent p List.mem_cons_self p' List.mem_cons_self)
    obtain ⟨parts, hparts, hparts'⟩ := ih hrest hpaths.2
      (fun q hq q' hq' => hsent q (List.mem_cons_of_mem p hq) q' (List.mem_cons_of_mem p' hq'))
    -- One part in front of the same parts, for both.
    refine ⟨part :: parts, ?_, ?_⟩
    · rw [inputParts, hpart, hparts]
      rfl
    · rw [inputParts, hpart', hparts']
      rfl

end Run

/-- The paths that an output is looked for at. -/
def Key.OutputFacts.paths (x : OutputFacts) : List String :=
  match x.collection with
  | .file path => outputPaths x.binding path
  | _ => []

namespace Run

theorem outputFiles_of_facts {p : OutputParameter} {x : OutputFacts}
    (h : outputFacts? p = some x) : outputFiles p = .ok x.paths := by
  obtain ⟨-, hbinding, -, hcollection⟩ := outputFacts?_eq_some_iff.mp h
  simp only [outputFiles, OutputParameter.collection, hcollection, OutputFacts.paths, hbinding]
  cases x.collection <;> rfl

/-- The outputs that a request selects, by their facts. -/
theorem selected_facts {c : Configuration} {xs : List OutputFacts} {requested : List String}
    (h : c.outputs.mapM outputFacts? = some xs) :
    List.Forall₂ (fun p x => outputFacts? p = some x) (selected c requested)
      (xs.filter fun x => requested.isEmpty || requested.contains x.id) := by
  rw [mapM_some_iff] at h
  unfold selected
  generalize c.outputs = ps at h
  induction h with
  | nil => exact .nil
  | @cons p x ps xs hx _ ih =>
    rw [List.filter_cons, List.filter_cons, (outputFacts?_eq_some_iff.mp hx).1]
    split
    · exact .cons hx ih
    · exact ih

/-- What a key holds of an input tells whether the program is told a path for it. -/
theorem toldPath?_eq_of_facts {unique : String} {p : InputParameter} {v v' : Option Value}
    {x : InputFacts} (h : inputFacts? p v = some x) (h' : inputFacts? p v' = some x) :
    toldPath? unique p v = toldPath? unique p v' := by
  have hsome : v.isSome = v'.isSome :=
    (isSome_of_inputFacts? h).symm.trans (isSome_of_inputFacts? h')
  cases v <;> cases v'
  case none.none => rfl
  case some.some v w =>
    unfold toldPath?
    rcases p.declaredDelivery with _ | (_ | _ | ⟨path, _ | argument⟩) <;> rfl
  all_goals cases hsome

/-- With one configuration and one source of names, the told paths are the same. -/
theorem toldPaths_eq_of_facts (unique : Nat → String) (place : Nat) {i i' : Inputs}
    {ps : List InputParameter} {xs : List InputFacts}
    (h : List.Forall₂ (fun p x => inputFacts? p (i.first? p.id) = some x) ps xs)
    (h' : List.Forall₂ (fun p x => inputFacts? p (i'.first? p.id) = some x) ps xs) :
    toldPaths unique i place ps = toldPaths unique i' place ps := by
  induction h generalizing place with
  | nil => rfl
  | @cons p x ps xs hx _ ih =>
    obtain ⟨hx', hrest⟩ := List.forall₂_cons.mp h'
    rw [toldPaths, toldPaths, toldPath?_eq_of_facts hx hx', ih _ hrest]

/-- A run is assembled of the parts of the inputs and the paths of the outputs, if all of them can
be told. -/
theorem assemble_eq_ok_iff {u : Nat → String} {c : Configuration} {i : Inputs}
    {outputs : List OutputParameter} {r : RunRequest} : assemble u c i outputs = .ok r ↔
      ∃ parts paths, inputParts u i 0 c.inputs = .ok parts ∧ outputs.mapM outputFiles = .ok paths ∧
        r = {
          image := c.image
          workingDirectory := c.workingDirectory
          command := c.command ++ c.flags ++ parts.flatMap Part.words
          stdin := parts.flatMap Part.stdin
          inputFiles := parts.flatMap Part.files
          outputFiles := paths.flatten } := by
  simp only [assemble, bind_eq_ok_iff, pure, Except.pure, Except.ok.injEq]
  constructor
  · rintro ⟨parts, hparts, paths, hpaths, rfl⟩
    exact ⟨parts, paths, hparts, hpaths, rfl⟩
  · rintro ⟨parts, paths, hparts, hpaths, rfl⟩
    exact ⟨parts, hparts, paths, hpaths, rfl⟩

theorem image_of_assemble {u : Nat → String} {c : Configuration} {i : Inputs}
    {outputs : List OutputParameter} {r : RunRequest} (h : assemble u c i outputs = .ok r) :
    r.image = c.image := by
  obtain ⟨_, _, -, -, rfl⟩ := assemble_eq_ok_iff.mp h
  rfl

/-- Requests with one description are assembled to one run, up to the image. -/
theorem assemble_eq_of_facts {a b : Request} {x : Facts} {u₁ u₂ : Nat → String}
    (ha : a.facts? = some x) (hb : b.facts? = some x)
    (hsha : Digest.CollisionFree fun bytes => a.Sends bytes ∨ b.Sends bytes)
    (hpaths : a.toldPaths u₁ = b.toldPaths u₂) :
    ∃ r s, a.assemble u₁ = .ok r ∧ b.assemble u₂ = .ok s ∧ { r with image := s.image } = s := by
  have hda := Request.describes_of_facts? ha
  have hdb := Request.describes_of_facts? hb
  obtain ⟨parts, hparts, hparts'⟩ := inputParts_agree (mapM_some_iff.mp hda.inputs)
    (mapM_some_iff.mp hdb.inputs) hpaths
    (fun p hp p' hp' bytes bytes' hs hs' =>
      hsha bytes bytes' (.inl ⟨p, hp, hs⟩) (.inr ⟨p', hp', hs'⟩))
  -- The paths that are fetched, and all else but the image, are facts.
  have houtputs {q : Request} (hq : x.Describes q) :
      (selected q.configuration q.requested).mapM outputFiles = .ok
        ((x.outputs.filter fun o => x.requested.isEmpty || x.requested.contains o.id).map
          OutputFacts.paths) := by
    rw [mapM_ok_iff, List.forall₂_map_right_iff, hq.requested]
    exact (selected_facts hq.outputs).imp fun _ _ => outputFiles_of_facts
  have hassemble {q : Request} {u : Nat → String} (hq : x.Describes q)
      (h : inputParts u q.inputs 0 q.configuration.inputs = .ok parts) :
      q.assemble u = .ok {
        image := q.configuration.image
        workingDirectory := x.workingDirectory
        command := x.command ++ x.flags ++ parts.flatMap Part.words
        stdin := parts.flatMap Part.stdin
        inputFiles := parts.flatMap Part.files
        outputFiles := ((x.outputs.filter fun o =>
          x.requested.isEmpty || x.requested.contains o.id).map OutputFacts.paths).flatten } := by
    rw [Request.assemble, assemble, h, houtputs hq, hq.workingDirectory, hq.command, hq.flags]
    rfl
  exact ⟨_, _, hassemble hda hparts, hassemble hdb hparts', rfl⟩

/-- **Requests with one stream are one run**, up to the image: the same directory, command line,
standard input, input files and output paths. The image is left to the key, which holds its identity
and not its name. -/
theorem assemble_eq_of_stream_eq {a b : Request} {r₁ r₂ : Registry} {l m : List Field}
    {u₁ u₂ : Nat → String} (ha : a.fields r₁ = .ok l) (hb : b.fields r₂ = .ok m) (hfa : a.Fits)
    (hfb : b.Fits) (h : stream l = stream m)
    (hsha : Digest.CollisionFree fun bytes => a.Sends bytes ∨ b.Sends bytes)
    (hpaths : a.toldPaths u₁ = b.toldPaths u₂) :
    ∃ r s, a.assemble u₁ = .ok r ∧ b.assemble u₂ = .ok s ∧ { r with image := s.image } = s := by
  obtain ⟨x, hx, hy⟩ := facts_eq_of_stream_eq ha hb hfa hfb h
  exact assemble_eq_of_facts hx hy hsha hpaths

/-! ## An image by two names

`renamed` is `relief` under another name of its image, with a fixed path in place of the generated
one. -/

def renamed : Configuration := { relief with
  image := "relief:latest"
  inputs := relief.inputs.take 2 ++ [⟨"area", none, .file, false, none, [], [], none, none,
    some (.file (.fixed "inputfile7.dat") (some ⟨some "--area"⟩))⟩] }

theorem facts_renamed :
    (reliefRequest renamed).facts? = some (reliefFacts ["relief"] ["--quiet", "--fast"]) := rfl

theorem fits_renamed : (reliefRequest renamed).Fits := by
  intro x hx
  cases facts_renamed.symm.trans hx
  exact fits_relief _ facts_relief

/-- The note is all that reaches standard input. -/
theorem sends_relief_or_renamed {bytes : Bytes}
    (h : (reliefRequest relief).Sends bytes ∨ (reliefRequest renamed).Sends bytes) :
    bytes = Text.bytes "low" := by
  rcases h with ⟨p, hp, hd, v, hv, hb⟩ | ⟨p, hp, hd, v, hv, hb⟩
  all_goals
    simp only [reliefRequest, renamed, relief, List.take_succ_cons, List.take_zero,
      List.cons_append, List.nil_append, List.mem_cons, List.not_mem_nil, or_false] at hp
    rcases hp with rfl | rfl | rfl
    · cases hd
    · cases hv
      cases hb
      rfl
    · cases hd

/-- The generated path is the fixed one if the text for generated names is `7`. -/
theorem assemble_relief_renamed : ∃ l m r s, (reliefRequest relief).fields .default = .ok l ∧
    (reliefRequest renamed).fields .default = .ok m ∧ (reliefRequest relief).Fits ∧
    (reliefRequest renamed).Fits ∧ stream l = stream m ∧
    (Digest.CollisionFree fun bytes =>
      (reliefRequest relief).Sends bytes ∨ (reliefRequest renamed).Sends bytes) ∧
    (reliefRequest relief).toldPaths (fun _ => "7") =
      (reliefRequest renamed).toldPaths (fun _ => "1") ∧
    (reliefRequest relief).assemble (fun _ => "7") = .ok r ∧
    (reliefRequest renamed).assemble (fun _ => "1") = .ok s ∧ { r with image := s.image } = s := by
  have ha := Request.fields_ok_iff.mpr ⟨_, facts_relief, knows_relief, rfl⟩
  have hb := Request.fields_ok_iff.mpr ⟨_, facts_renamed, knows_relief, rfl⟩
  have hsha : Digest.CollisionFree fun bytes =>
      (reliefRequest relief).Sends bytes ∨ (reliefRequest renamed).Sends bytes :=
    fun _ _ hx hy _ => (sends_relief_or_renamed hx).trans (sends_relief_or_renamed hy).symm
  have hpaths : (reliefRequest relief).toldPaths (fun _ => "7") =
      (reliefRequest renamed).toldPaths (fun _ => "1") := by decide
  obtain ⟨r, s, hr, hs, himage⟩ :=
    assemble_eq_of_stream_eq ha hb fits_relief fits_renamed rfl hsha hpaths
  exact ⟨_, _, r, s, ha, hb, fits_relief, fits_renamed, rfl, hsha, hpaths, hr, hs, himage⟩

end Run

end CachedRun
