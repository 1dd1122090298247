import CachedRun.Proofs.Run.Assembly

/-!
# Told paths — what is on a command line is written

The path of a file is put on the command line before the file is written, and a layer is written
under names of its own. A program that is told a path must find the file there. It does
(`told_paths_written`): **the words of an input are its flag and a path at which one of its files
lies, with the bytes of its value**, whatever its layer consists of and however its path ends.

What one input adds to a run is `Adds`, with a constructor for each way to deliver a value. One
input is a case analysis (`adds_of_inputPart`), and a walk over all of them keeps their order
(`adds_of_inputParts`).
-/

set_option autoImplicit false

namespace CachedRun.Run

open Result

variable {p : InputParameter} {v : Option Value} {part : Part} {parts : List Part}

/-- What an input adds to a run, by its declaration and its value: words on the command line, and
files. The text for generated names is given. -/
inductive Adds (unique : String) (p : InputParameter) :
    Option Value → List String → List (String × Bytes) → Prop
  | absent : Adds unique p none [] []
  | words {flag : Option String} {v : Value} {words : List String}
    (hdelivery : p.declaredDelivery = some (.argument flag)) (hwords : v.arguments flag = .ok words) :
    Adds unique p (some v) words []
  | stdin {v : Value} (hdelivery : p.declaredDelivery = some .stdin) : Adds unique p (some v) [] []
  | knownFile {path : FilePath} {v : Value} {files : List (String × Bytes)}
    (hdelivery : p.declaredDelivery = some (.file path none))
    (hfiles : v.IsWrittenAt (path.resolve p.binding unique) files) : Adds unique p (some v) [] files
  /-- The program is told the path. -/
  | toldFile {path : FilePath} {argument : PathArgument} {v : Value} {files : List (String × Bytes)}
    (hdelivery : p.declaredDelivery = some (.file path (some argument)))
    (hfiles : v.IsWrittenAt (path.resolve p.binding unique) files) :
    Adds unique p (some v) (argument.flag.toList ++ [path.resolve p.binding unique]) files

/-- **One input** adds what its declaration says. -/
theorem adds_of_inputPart {unique : String}
    (hlayer : ∀ layer, v = some (.shapefile layer) → layer.parts.Sorted)
    (h : inputPart unique p v = .ok part) : Adds unique p v part.words part.files := by
  obtain ⟨delivery, hdelivery, h⟩ := bind_eq_ok_iff.mp h
  have hdeclared : p.declaredDelivery = some delivery := by
    unfold InputParameter.delivery at hdelivery
    split at hdelivery <;> cases hdelivery
    assumption
  cases v with
  | none =>
    cases h
    exact .absent
  | some v =>
    cases delivery with
    | argument flag =>
      obtain ⟨words, hwords, rfl⟩ := map_eq_ok_iff.mp h
      exact .words hdeclared hwords
    | stdin =>
      obtain ⟨b, -, rfl⟩ := map_eq_ok_iff.mp h
      exact .stdin hdeclared
    | file path argument =>
      obtain ⟨files, hfiles, h⟩ := bind_eq_ok_iff.mp h
      cases h
      have hwritten := Value.isWrittenAt_of_toFiles
        (fun layer hv => hlayer layer (congrArg some hv)) hfiles
      -- The files are the same; a path that is told also adds words.
      cases argument with
      | none => exact .knownFile hdeclared hwritten
      | some argument => exact .toldFile hdeclared hwritten

/-- **All inputs** add their parts in the order of their declaration. -/
theorem adds_of_inputParts {unique : Nat → String} {inputs : Inputs} {place : Nat}
    {ps : List InputParameter}
    (hlayers : ∀ p ∈ ps, ∀ layer, inputs.first? p.id = some (.shapefile layer) →
      layer.parts.Sorted)
    (h : inputParts unique inputs place ps = .ok parts) :
    List.Forall₂ (fun p part =>
      Adds (unique p.2) p.1 (inputs.first? p.1.id) part.words part.files)
      (ps.zipIdx place) parts := by
  induction ps generalizing place parts with
  | nil =>
    cases h
    exact .nil
  | cons p ps ih =>
    rw [List.forall_mem_cons] at hlayers
    obtain ⟨part, hpart, h⟩ := bind_eq_ok_iff.mp h
    obtain ⟨others, hothers, h⟩ := bind_eq_ok_iff.mp h
    cases h
    exact .cons (adds_of_inputPart hlayers.1 hpart) (ih hlayers.2 hothers)

/-- **Every path on a command line is that of a written file.** A run that can be assembled has the
configured command, the flags, and what the inputs add, in the order of their declaration. An input
without a value adds nothing. An input whose path the program is told adds its flag, if it has one,
and a path that exactly one of the files of this input has, with the bytes of the value. -/
theorem told_paths_written {unique : Nat → String} {c : Configuration} {inputs : Inputs}
    {selected : List OutputParameter} {r : RunRequest}
    (hlayers : ∀ p ∈ c.inputs, ∀ layer, inputs.first? p.id = some (.shapefile layer) →
      layer.parts.Sorted)
    (h : assemble unique c inputs selected = .ok r) :
    ∃ parts : List (List String × List (String × Bytes)),
      r.command = c.command ++ c.flags ++ parts.flatMap Prod.fst ∧
      r.inputFiles = parts.flatMap Prod.snd ∧
      List.Forall₂ (fun p part =>
        Adds (unique p.2) p.1 (inputs.first? p.1.id) part.1 part.2) c.inputs.zipIdx parts := by
  obtain ⟨parts, _, hparts, -, rfl⟩ := assemble_eq_ok_iff.mp h
  refine ⟨parts.map fun part => (part.words, part.files), ?_, ?_, ?_⟩
  · rw [List.flatMap_map]
  · rw [List.flatMap_map]
  · rw [List.forall₂_map_right_iff]
    exact adds_of_inputParts hlayers hparts

/-! A chart is drawn from a coast with a part of its own, and from tides if there are any. -/

def chart : Configuration where
  id := "chart"
  summary := none
  image := "chart"
  workingDirectory := "/"
  command := ["chart"]
  flags := ["--quiet"]
  inputs := [
    ⟨"coast", none, .shapefile, false, none, [], [], none, none,
      some (.file (.fixed "coast.shp") (some ⟨none⟩))⟩,
    ⟨"note", none, .string, true, none, [], [], none, none, some .stdin⟩,
    ⟨"depth", none, .int, false, none, [], [], none, none, some (.argument (some "-d"))⟩,
    ⟨"tides", none, .file, true, none, [], [], none, none,
      some (.file .generated (some ⟨some "--tides"⟩))⟩]
  outputs := []
  stderrHandler := none
  exitValueHandler := none
  stdoutHandler := none

def chartLayer : Shapefile := ⟨[("cpg", [1]), ("shp", [2])]⟩

def chartInputs : Inputs :=
  [("coast", [.shapefile chartLayer]), ("depth", [.int 3]), ("tides", [.file [4]])]

theorem sorted_of_chart {layer : Shapefile} (hp : p ∈ chart.inputs)
    (h : chartInputs.first? p.id = some (.shapefile layer)) : layer.parts.Sorted := by
  simp only [chart, List.mem_cons, List.not_mem_nil, or_false] at hp
  rcases hp with rfl | rfl | rfl | rfl <;> cases h
  unfold Dict.Sorted
  decide

theorem told_chart : ∃ r, assemble (fun _ => "7") chart chartInputs [] = .ok r ∧
    (∀ p ∈ chart.inputs, ∀ layer, chartInputs.first? p.id = some (.shapefile layer) →
      layer.parts.Sorted) ∧
    r.command = ["chart", "--quiet", "coast.shp", "-d", "3", "--tides", "inputfile7.dat"] ∧
    r.inputFiles = [("coast.cpg", [1]), ("coast.shp", [2]), ("inputfile7.dat", [4])] ∧
    ∃ parts : List (List String × List (String × Bytes)),
      r.command = chart.command ++ chart.flags ++ parts.flatMap Prod.fst ∧
      r.inputFiles = parts.flatMap Prod.snd ∧
      List.Forall₂ (fun p part =>
        Adds "7" p.1 (chartInputs.first? p.1.id) part.1 part.2) chart.inputs.zipIdx parts := by
  have hlayers : ∀ p ∈ chart.inputs, ∀ layer,
      chartInputs.first? p.id = some (.shapefile layer) → layer.parts.Sorted :=
    fun _ hp _ => sorted_of_chart hp
  have hassemble : ∃ r, assemble (fun _ => "7") chart chartInputs [] = .ok r ∧
      r.command = ["chart", "--quiet", "coast.shp", "-d", "3", "--tides", "inputfile7.dat"] ∧
      r.inputFiles = [("coast.cpg", [1]), ("coast.shp", [2]), ("inputfile7.dat", [4])] :=
    ⟨_, rfl, rfl, rfl⟩
  obtain ⟨r, hr, hcommand, hfiles⟩ := hassemble
  exact ⟨r, hr, hlayers, hcommand, hfiles, told_paths_written hlayers hr⟩

end CachedRun.Run
