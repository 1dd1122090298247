import CachedRun.Proofs.Key.Facts

/-!
# Decoding — no two facts have one stream

`Proofs/Key/Facts.lean` says that a key is written from the facts of a request. Here is the other
half: the facts can be read back. `Facts.fields_inj` reads them off the fields and `stream_inj`
reads the fields off the bytes, and `stream_eq_iff` puts the two together: **two requests have one
stream exactly if they have the same facts**.

There is no decoder. What takes its place is that each part is prefix-free (`PrefixFree`), and the
proofs follow the parts: where a part has several shapes, the name in front of it or the tag of its
first field is different for each, so the cases that mix two shapes are closed by that field.
-/

set_option autoImplicit false

namespace CachedRun.Key

/-! ## What eight bytes have room for

A length takes eight bytes in a stream. No text, no content and no list comes near `2 ^ 63` bytes or
members, and `Fits` says so of all that the facts hold. It is decidable, so for the facts of one
request it can be checked. -/

def Short (s : String) : Prop := (Text.bytes s).length < 2 ^ 63

def ShortTexts (l : List String) : Prop := l.length < 2 ^ 63 ∧ ∀ s ∈ l, Short s

def Placement.Fits : Placement → Prop
  | .argument flag => ∀ s ∈ flag, Short s
  | .stdin => True
  | .toldFile flag => ∀ s ∈ flag, Short s
  | .knownFile path => Short path

def Payload.Fits : Payload → Prop
  | .words ws => ShortTexts ws
  | .digest d => d.length < 2 ^ 63
  | .files fs => fs.length < 2 ^ 63 ∧ ∀ f ∈ fs, Short f.1 ∧ f.2.length < 2 ^ 63

structure InputFacts.Fits (x : InputFacts) : Prop where
  id : Short x.id
  placement : x.placement.Fits
  value : ∀ v ∈ x.value, v.2.Fits

structure OutputFacts.Fits (x : OutputFacts) : Prop where
  id : Short x.id
  path : ∀ path ∈ x.collection.path?, Short path

structure Facts.Fits (x : Facts) : Prop where
  process : Short x.process
  image : Short x.image
  runnerVersion : ∀ s ∈ x.runnerVersion, Short s
  serviceVersion : ∀ s ∈ x.serviceVersion, Short s
  workingDirectory : Short x.workingDirectory
  command : ShortTexts x.command
  flags : ShortTexts x.flags
  inputCount : x.inputs.length < 2 ^ 63
  inputs : ∀ i ∈ x.inputs, i.Fits
  outputCount : x.outputs.length < 2 ^ 63
  outputs : ∀ o ∈ x.outputs, o.Fits
  stderrHandler : ∀ s ∈ x.stderrHandler, Short s
  exitValueHandler : ∀ s ∈ x.exitValueHandler, Short s
  stdoutHandler : ∀ s ∈ x.stdoutHandler, Short s
  requested : ShortTexts x.requested

/-- All texts, contents and lists that the key of a request is made from are shorter than
`2 ^ 63`. -/
def Request.Fits (q : Request) : Prop := ∀ x, q.facts? = some x → x.Fits

instance (s : String) : Decidable (Short s) :=
  inferInstanceAs (Decidable ((Text.bytes s).length < 2 ^ 63))

instance (l : List String) : Decidable (ShortTexts l) :=
  inferInstanceAs (Decidable (l.length < 2 ^ 63 ∧ ∀ s ∈ l, Short s))

instance : (x : Placement) → Decidable x.Fits
  | .argument flag => inferInstanceAs (Decidable (∀ s ∈ flag, Short s))
  | .stdin => inferInstanceAs (Decidable True)
  | .toldFile flag => inferInstanceAs (Decidable (∀ s ∈ flag, Short s))
  | .knownFile path => inferInstanceAs (Decidable (Short path))

instance : (x : Payload) → Decidable x.Fits
  | .words ws => inferInstanceAs (Decidable (ShortTexts ws))
  | .digest d => inferInstanceAs (Decidable (d.length < 2 ^ 63))
  | .files fs => inferInstanceAs
      (Decidable (fs.length < 2 ^ 63 ∧ ∀ f ∈ fs, Short f.1 ∧ f.2.length < 2 ^ 63))

instance (x : InputFacts) : Decidable x.Fits :=
  decidable_of_iff (Short x.id ∧ x.placement.Fits ∧ ∀ v ∈ x.value, v.2.Fits)
    ⟨fun ⟨h₁, h₂, h₃⟩ => ⟨h₁, h₂, h₃⟩, fun ⟨h₁, h₂, h₃⟩ => ⟨h₁, h₂, h₃⟩⟩

instance (x : OutputFacts) : Decidable x.Fits :=
  decidable_of_iff (Short x.id ∧ ∀ path ∈ x.collection.path?, Short path)
    ⟨fun ⟨h₁, h₂⟩ => ⟨h₁, h₂⟩, fun ⟨h₁, h₂⟩ => ⟨h₁, h₂⟩⟩

theorem short_bindingKey (b : Binding) : Short b.key := by
  cases b <;> decide

/-! ### Fields of what fits, fit -/

theorem fits_text {tag s : String} (ht : Short tag) (hs : Short s) : (Field.text tag s).Fits := by
  unfold Short at ht hs
  simp only [Field.Fits, Field.text]
  omega

theorem fits_content {tag : String} {b : Bytes} (ht : Short tag) (hb : b.length < 2 ^ 63) :
    (Field.mk tag b).Fits := by
  unfold Short at ht
  simp only [Field.Fits]
  omega

theorem fits_flag {tag : String} {b : Bool} (ht : Short tag) : (Field.flag tag b).Fits := by
  unfold Short at ht
  simp only [Field.Fits, Field.flag, List.length_singleton]
  omega

theorem fits_count {tag : String} {n : Nat} (ht : Short tag) : (Field.count tag n).Fits := by
  unfold Short at ht
  simp only [Field.Fits, Field.count, length_bigEndian64]
  omega

theorem fits_optional {tag : String} {s : Option String} (ht : Short tag)
    (hs : ∀ t ∈ s, Short t) : (Field.optional tag s).Fits := by
  unfold Short at ht
  cases s with
  | none =>
    simp only [Field.Fits, Field.optional, List.length_singleton]
    omega
  | some t =>
    have ht' := hs t rfl
    unfold Short at ht'
    simp only [Field.Fits, Field.optional, List.length_cons]
    omega

theorem fits_list {tag : String} {l : List String} (ht : Short tag) (hl : ShortTexts l) :
    ∀ f ∈ Field.list tag l, f.Fits := by
  intro f hf
  rcases List.mem_cons.mp hf with rfl | hf
  · exact fits_count ht
  · obtain ⟨s, hs, rfl⟩ := List.mem_map.mp hf
    exact fits_text ht (hl.2 s hs)

theorem Placement.fits_field {x : Placement} (h : x.Fits) : x.field.Fits := by
  cases x with
  | argument flag => exact fits_optional (by decide) h
  | stdin => exact fits_optional (by decide) (by simp)
  | toldFile flag => exact fits_optional (by decide) h
  | knownFile path => exact fits_text (by decide) h

theorem Payload.fits_fields {x : Payload} (h : x.Fits) : ∀ f ∈ x.fields, f.Fits := by
  cases x with
  | words ws => exact fits_list (by decide) h
  | digest d =>
    simp only [Payload.fields, List.forall_mem_singleton]
    exact fits_content (by decide) h
  | files fs =>
    intro f hf
    rcases List.mem_cons.mp hf with rfl | hf
    · exact fits_count (by decide)
    · obtain ⟨⟨path, content⟩, hfile, hf⟩ := List.mem_flatMap.mp hf
      obtain ⟨hpath, hcontent⟩ := h.2 _ hfile
      simp only [List.mem_cons, List.not_mem_nil, or_false] at hf
      rcases hf with rfl | rfl
      · exact fits_text (by decide) hpath
      · exact fits_content (by decide) hcontent

theorem fits_given {x : Option (Binding × Payload)} (h : ∀ v ∈ x, v.2.Fits) :
    ∀ f ∈ givenFields x, f.Fits := by
  cases x with
  | none =>
    simp only [givenFields, List.forall_mem_singleton]
    exact fits_text (by decide) (by decide)
  | some v =>
    simp only [givenFields, List.forall_mem_cons]
    exact ⟨fits_text (by decide) (short_bindingKey v.1), Payload.fits_fields (h v rfl)⟩

theorem InputFacts.fits_fields {x : InputFacts} (h : x.Fits) : ∀ f ∈ x.fields, f.Fits := by
  have hkey : Short x.placement.key := by
    cases x.placement <;> simp only [Placement.key] <;> decide
  simp only [InputFacts.fields, List.forall_mem_append, List.forall_mem_cons]
  exact ⟨⟨fits_text (by decide) h.id, fits_text (by decide) (short_bindingKey x.binding),
    fits_flag (by decide), fits_text (by decide) hkey, Placement.fits_field h.placement,
    by simp⟩, fits_given h.value⟩

theorem OutputFacts.fits_fields {x : OutputFacts} (h : x.Fits) : ∀ f ∈ x.fields, f.Fits := by
  have hkey : Short x.collection.key := by
    cases x.collection <;> simp only [Collection.key] <;> decide
  have hpath : ∀ f ∈ collectionPath x.collection, f.Fits := by
    intro f hf
    obtain ⟨path, hmem, rfl⟩ := List.mem_map.mp hf
    exact fits_text (by decide) (h.path path (Option.mem_toList.mp hmem))
  simp only [OutputFacts.fields, List.forall_mem_append, List.forall_mem_cons]
  exact ⟨⟨fits_text (by decide) h.id, fits_text (by decide) (short_bindingKey x.binding),
    fits_flag (by decide), fits_text (by decide) hkey, by simp⟩, hpath⟩

theorem Facts.fits_fields {x : Facts} (h : x.Fits) : ∀ f ∈ x.fields, f.Fits := by
  have hinputs : ∀ f ∈ x.inputs.flatMap InputFacts.fields, f.Fits := by
    intro f hf
    obtain ⟨i, hi, hf⟩ := List.mem_flatMap.mp hf
    exact InputFacts.fits_fields (h.inputs i hi) f hf
  have houtputs : ∀ f ∈ x.outputs.flatMap OutputFacts.fields, f.Fits := by
    intro f hf
    obtain ⟨o, ho, hf⟩ := List.mem_flatMap.mp hf
    exact OutputFacts.fits_fields (h.outputs o ho) f hf
  -- The other fields, in the order in which they are folded.
  simp only [Facts.fields, List.forall_mem_append, List.forall_mem_cons]
  refine ⟨⟨⟨⟨⟨⟨⟨?_, ?_, ?_, ?_, ?_, ?_, by simp⟩, ?_⟩, ?_⟩, ?_, hinputs⟩, ?_, houtputs⟩,
    ?_, ?_, ?_, by simp⟩, ?_⟩
  · exact fits_text (by decide) (by decide)
  · exact fits_text (by decide) h.process
  · exact fits_text (by decide) h.image
  · exact fits_optional (by decide) h.runnerVersion
  · exact fits_optional (by decide) h.serviceVersion
  · exact fits_text (by decide) h.workingDirectory
  · exact fits_list (by decide) h.command
  · exact fits_list (by decide) h.flags
  · exact fits_count (by decide)
  · exact fits_count (by decide)
  · exact fits_optional (by decide) h.stderrHandler
  · exact fits_optional (by decide) h.exitValueHandler
  · exact fits_optional (by decide) h.stdoutHandler
  · exact fits_list (by decide) h.requested

/-! ## Reading the facts off the fields -/

theorem Placement.eq_of_field {x y : Placement} (hkey : x.key = y.key)
    (hfield : x.field = y.field) : x = y := by
  have htag := congrArg Field.tag hfield
  cases x <;> cases y
  case argument.argument => rw [Field.optional_inj.mp hfield]
  case stdin.stdin => rfl
  case toldFile.toldFile => rw [Field.optional_inj.mp hfield]
  case knownFile.knownFile => rw [Field.text_inj.mp hfield]
  -- Deliveries of two names, or a file of either kind: the tag of the field differs.
  all_goals simp [Placement.key, Placement.field] at hkey htag

theorem fileField_prefixFree : PrefixFree (fun _ : String × Bytes => True)
    (fun f => [Field.text "file" f.1, ⟨"content", f.2⟩]) := by
  rintro ⟨path, content⟩ ⟨path', content'⟩ s t _ _ h
  simpa [and_assoc] using h

theorem Payload.prefixFree : PrefixFree Payload.Fits Payload.fields := by
  intro x y s t hx hy h
  cases x <;> cases y
  case words.words v w =>
    obtain ⟨rfl, hst⟩ := Field.list_prefixFree "argv" (Nat.lt_trans hx.1 (by decide))
      (Nat.lt_trans hy.1 (by decide)) h
    exact ⟨rfl, hst⟩
  case digest.digest d e =>
    simp only [Payload.fields, List.cons_append, List.nil_append, List.cons.injEq, Field.mk.injEq,
      true_and] at h
    exact ⟨by rw [h.1], h.2⟩
  case files.files v w =>
    obtain ⟨rfl, hst⟩ := counted_fields_inj fileField_prefixFree (fun _ _ => trivial)
      (fun _ _ => trivial) (Nat.lt_trans hx.1 (by decide)) (Nat.lt_trans hy.1 (by decide)) h
    exact ⟨rfl, hst⟩
  -- Payloads of two shapes begin with fields of two tags.
  all_goals
    simp only [Payload.fields, Field.list, fileFields, List.cons_append, List.cons.injEq] at h
    exact absurd (congrArg Field.tag h.1) (by simp)

/-- The fields of a value that may be missing. -/
theorem given_prefixFree : PrefixFree (fun x => ∀ v ∈ x, v.2.Fits) givenFields := by
  intro x y s t hx hy h
  cases x <;> cases y
  case none.none => exact ⟨rfl, by simpa [givenFields] using h⟩
  case some.some v w =>
    obtain ⟨binding, payload⟩ := v
    obtain ⟨binding', payload'⟩ := w
    simp only [givenFields, List.cons_append, List.cons.injEq, Field.text_inj] at h
    obtain ⟨hpayload, hst⟩ := Payload.prefixFree (hx _ rfl) (hy _ rfl) h.2
    cases Binding.key_inj h.1
    cases hpayload
    exact ⟨rfl, hst⟩
  all_goals
    simp only [givenFields, absent, List.cons_append, List.cons.injEq] at h
    exact absurd (congrArg Field.tag h.1) (by simp)

theorem InputFacts.prefixFree : PrefixFree InputFacts.Fits InputFacts.fields := by
  intro x y s t hx hy h
  simp only [InputFacts.fields, List.cons_append, List.nil_append,
    List.cons.injEq, Field.text_inj, Field.flag_inj] at h
  obtain ⟨hid, hbinding, hoptional, hkey, hfield, hrest⟩ := h
  obtain ⟨hvalue, hst⟩ := given_prefixFree hx.value hy.value hrest
  refine ⟨?_, hst⟩
  rw [InputFacts.mk.injEq]
  exact ⟨hid, Binding.key_inj hbinding, hoptional, Placement.eq_of_field hkey hfield, hvalue⟩

/-- After the name of a collection it is known whether a path follows. -/
theorem collection_inj {x y : Collection} {s t : List Field} (hkey : x.key = y.key)
    (h : collectionPath x ++ s = collectionPath y ++ t) : x = y ∧ s = t := by
  cases x <;> cases y
  case stdout.stdout | stderr.stderr | exitValue.exitValue => exact ⟨rfl, h⟩
  case file.file path path' =>
    simp only [collectionPath, Collection.path?, Option.toList_some, List.map_cons, List.map_nil,
      List.cons_append, List.nil_append, List.cons.injEq, Field.text_inj] at h
    exact ⟨by rw [h.1], h.2⟩
  all_goals simp [Collection.key] at hkey

theorem OutputFacts.prefixFree : PrefixFree OutputFacts.Fits OutputFacts.fields := by
  intro x y s t _ _ h
  simp only [OutputFacts.fields, List.cons_append, List.nil_append,
    List.cons.injEq, Field.text_inj, Field.flag_inj] at h
  obtain ⟨hid, hbinding, hoptional, hkey, hrest⟩ := h
  obtain ⟨hcollection, hst⟩ := collection_inj hkey hrest
  refine ⟨?_, hst⟩
  rw [OutputFacts.mk.injEq]
  exact ⟨hid, Binding.key_inj hbinding, hoptional, hcollection⟩

/-- **The facts are read back from the fields**, part after part. A list comes with its count, so
each part tells where the next one begins. -/
theorem Facts.fields_inj {x y : Facts} (hx : x.Fits) (hy : y.Fits) (h : x.fields = y.fields) :
    x = y := by
  have small {n : Nat} (hn : n < 2 ^ 63) : n < 2 ^ 64 := Nat.lt_trans hn (by decide)
  simp only [Facts.fields, List.append_assoc, List.cons_append, List.nil_append,
    List.cons.injEq, Field.text_inj, Field.optional_inj, true_and] at h
  obtain ⟨hprocess, himage, hrunner, hservice, hdirectory, h⟩ := h
  obtain ⟨hcommand, h⟩ := Field.list_prefixFree _ (small hx.command.1) (small hy.command.1) h
  obtain ⟨hflags, h⟩ := Field.list_prefixFree _ (small hx.flags.1) (small hy.flags.1) h
  obtain ⟨hinputs, h⟩ := counted_fields_inj InputFacts.prefixFree hx.inputs hy.inputs
    (small hx.inputCount) (small hy.inputCount) h
  obtain ⟨houtputs, h⟩ := counted_fields_inj OutputFacts.prefixFree hx.outputs hy.outputs
    (small hx.outputCount) (small hy.outputCount) h
  simp only [List.cons.injEq, Field.optional_inj] at h
  obtain ⟨hstderr, hexit, hstdout, h⟩ := h
  obtain ⟨hrequested, -⟩ := Field.list_prefixFree "requested" (small hx.requested.1)
    (small hy.requested.1) (s := []) (t := []) (by rw [h])
  rw [Facts.mk.injEq]
  exact ⟨hprocess, himage, hrunner, hservice, hdirectory, hcommand, hflags, hinputs, houtputs,
    hstderr, hexit, hstdout, hrequested⟩

/-- Requests with one stream have the same facts. -/
theorem facts_eq_of_stream_eq {a b : Request} {r₁ r₂ : Registry} {l m : List Field}
    (ha : a.fields r₁ = .ok l) (hb : b.fields r₂ = .ok m) (hfa : a.Fits) (hfb : b.Fits)
    (h : stream l = stream m) : ∃ x, a.facts? = some x ∧ b.facts? = some x := by
  obtain ⟨x, hx, -, rfl⟩ := Request.fields_ok_iff.mp ha
  obtain ⟨y, hy, -, rfl⟩ := Request.fields_ok_iff.mp hb
  have hxy := Facts.fields_inj (hfa x hx) (hfb y hy)
    (stream_inj (Facts.fits_fields (hfa x hx)) (Facts.fits_fields (hfb y hy)) h)
  exact ⟨x, hx, hxy ▸ hy⟩

/-- **The stream of a key decides the facts of its request, and the facts decide the stream.** The
two requests may be made of different configurations, and with different registries. Each field
tells its own lengths, so a stream is cut into its fields in one way only, and the fields are taken
back into the facts part after part. -/
theorem stream_eq_iff {a b : Request} {r₁ r₂ : Registry} {l m : List Field}
    (ha : a.fields r₁ = .ok l) (hb : b.fields r₂ = .ok m) (hfa : a.Fits) (hfb : b.Fits) :
    ∃ x y, a.facts? = some x ∧ b.facts? = some y ∧ (stream l = stream m ↔ x = y) := by
  obtain ⟨x, hx, -, hl⟩ := Request.fields_ok_iff.mp ha
  obtain ⟨y, hy, -, hm⟩ := Request.fields_ok_iff.mp hb
  refine ⟨x, y, hx, hy, ?_⟩
  constructor
  · intro h
    obtain ⟨z, hxz, hyz⟩ := facts_eq_of_stream_eq ha hb hfa hfb h
    rw [hx, Option.some.injEq] at hxz
    rw [hy, Option.some.injEq] at hyz
    rw [hxz, hyz]
  · rintro rfl
    rw [← hl, ← hm]

/-! ## Two command lines of the same words

`relief` and `shifted` are started with the same words, one of which is part of the command here and
a flag there. -/

/-- A program that is given a number, a text on standard input and the content of a file. -/
def relief : Configuration where
  id := "relief"
  summary := none
  image := "relief:2"
  workingDirectory := "/data"
  command := ["relief"]
  flags := ["--quiet", "--fast"]
  inputs := [
    ⟨"times", none, .int, false, none, [], [], none, none, some (.argument (some "-n"))⟩,
    ⟨"note", none, .string, true, none, [], [], none, none, some .stdin⟩,
    ⟨"area", none, .file, false, none, [], [], none, none,
      some (.file .generated (some ⟨some "--area"⟩))⟩]
  outputs := [
    ⟨"report", none, .string, false, none, none, some .stdout⟩,
    ⟨"map", none, .file, true, none, none, some (.file "map.bin")⟩]
  stderrHandler := none
  exitValueHandler := some ⟨"errorIfNotZero", .notZero⟩
  stdoutHandler := none

def shifted : Configuration := { relief with command := ["relief", "--quiet"], flags := ["--fast"] }

/-- Only the first of two values counts. -/
def reliefInputs : Inputs :=
  [("times", [.int 3, .int 4]), ("note", [.string "low"]), ("area", [.file [1, 2]])]

def reliefRequest (c : Configuration) : Request :=
  ⟨c, ⟨some "sha256:1", none, none⟩, reliefInputs, []⟩

def reliefFacts (command flags : List String) : Facts where
  process := "relief"
  image := "sha256:1"
  runnerVersion := none
  serviceVersion := none
  workingDirectory := "/data"
  command
  flags
  inputs := [
    ⟨"times", .int, false, .argument (some "-n"), some (.int, .words ["-n", "3"])⟩,
    ⟨"note", .string, true, .stdin, some (.string, .digest (Digest.sha256 (Text.bytes "low")))⟩,
    ⟨"area", .file, false, .toldFile (some "--area"), some (.file, .files [("input", [1, 2])])⟩]
  outputs := [⟨"report", .string, false, .stdout⟩, ⟨"map", .file, true, .file "map.bin"⟩]
  stderrHandler := none
  exitValueHandler := some "errorIfNotZero"
  stdoutHandler := none
  requested := []

theorem facts_relief :
    (reliefRequest relief).facts? = some (reliefFacts ["relief"] ["--quiet", "--fast"]) := rfl

theorem facts_shifted :
    (reliefRequest shifted).facts? = some (reliefFacts ["relief", "--quiet"] ["--fast"]) := rfl

theorem knows_relief : Knows .default relief := by
  intro slot name h
  cases slot <;> simp only [relief, Configuration.handlerName, Option.map_none, Option.map_some,
    Option.some.injEq, reduceCtorEq] at h
  subst h
  decide

theorem fits_relief : (reliefRequest relief).Fits := by
  intro x hx
  cases facts_relief.symm.trans hx
  constructor <;> decide

theorem fits_shifted : (reliefRequest shifted).Fits := by
  intro x hx
  cases facts_shifted.symm.trans hx
  constructor <;> decide

/-- A word that moves from the flags to the command changes the stream. -/
theorem stream_relief_ne_shifted : ∃ l m, (reliefRequest relief).fields .default = .ok l ∧
    (reliefRequest shifted).fields .default = .ok m ∧ (reliefRequest relief).Fits ∧
    (reliefRequest shifted).Fits ∧ stream l ≠ stream m := by
  have ha := Request.fields_ok_iff.mpr ⟨_, facts_relief, knows_relief, rfl⟩
  have hb := Request.fields_ok_iff.mpr ⟨_, facts_shifted, knows_relief, rfl⟩
  refine ⟨_, _, ha, hb, fits_relief, fits_shifted, fun h => ?_⟩
  obtain ⟨x, y, hx, hy, hiff⟩ := stream_eq_iff ha hb fits_relief fits_shifted
  cases facts_relief.symm.trans hx
  cases facts_shifted.symm.trans hy
  exact absurd (congrArg Facts.flags (hiff.mp h)) (by decide)

end CachedRun.Key
