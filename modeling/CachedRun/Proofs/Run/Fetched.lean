import CachedRun.Proofs.Run.Results

/-!
# Fetched files — the listed paths suffice

The files of a run are fetched before anyone looks at them: a request lists the paths, and what the
program left elsewhere is gone. So an output that is collected must be found at the listed paths
alone. It is (`collect_congr`): **two runs that agree on the listed paths have the same outputs, or
the same fault**, whatever else they left.

`fetched_suffices` puts this beside what is so of one value: that a layer comes back from the files
that it is written to, and that a reader is asked for the paths of a value and no others.
-/

set_option autoImplicit false

namespace CachedRun

open Result

/-- Two runs left the same on their streams, as their exit value, and at these paths. -/
structure RunOutput.AgreesOn (paths : List String) (o o' : RunOutput) : Prop where
  exitCode : o.exitCode = o'.exitCode
  stdout : o.stdout = o'.stdout
  stderr : o.stderr = o'.stderr
  files : ∀ path ∈ paths, o.files.find? path = o'.files.find? path

namespace Run

variable {o o' : RunOutput} {p : OutputParameter} {ps : List OutputParameter} {paths : List String}
  {path : String} {unique : Nat → String} {c : Configuration} {inputs : Inputs} {r : RunRequest}

/-- The paths of a selected output are listed. -/
theorem outputPaths_subset (h : assemble unique c inputs ps = .ok r) (hp : p ∈ ps)
    (hcollection : p.declaredCollection = some (.file path)) :
    outputPaths p.binding path ⊆ r.outputFiles := by
  obtain ⟨_, lists, -, hlists, rfl⟩ := assemble_eq_ok_iff.mp h
  have hpaths : outputFiles p = .ok (outputPaths p.binding path) := by
    rw [outputFiles, OutputParameter.collection, hcollection]
    rfl
  have hmem : outputPaths p.binding path ∈ lists :=
    (mem_iff_of_mapM_ok hlists).mpr ⟨p, hp, hpaths⟩
  exact fun q hq => List.mem_flatten.mpr ⟨_, hmem, hq⟩

theorem reading_congr (h : o.AgreesOn paths o')
    (hpaths : ∀ path, p.declaredCollection = some (.file path) →
      outputPaths p.binding path ⊆ paths) : reading p o = reading p o' := by
  cases hcollection : p.declaredCollection with
  | none => rw [reading, reading, OutputParameter.collection, hcollection]; rfl
  | some collection =>
    rw [reading_of_collection hcollection, reading_of_collection hcollection]
    cases collection with
    | stdout => rw [leftAt, leftAt, h.stdout]
    | stderr => rw [leftAt, leftAt, h.stderr]
    | exitValue => rw [leftAt, leftAt, h.exitCode]
    | file path =>
      have hfiles : ∀ q ∈ outputPaths p.binding path,
          (o.files.find? q : Id (Option Bytes)) = o'.files.find? q :=
        fun q hq => h.files q (hpaths path hcollection hq)
      exact congrArg Id.run (Value.ofFiles_congr hfiles)

/-- **Outputs are collected from the listed paths** alone. -/
theorem collect_congr (hassemble : assemble unique c inputs ps = .ok r)
    (h : o.AgreesOn r.outputFiles o') : collect ps o = collect ps o' := by
  have hconvert : ∀ p ∈ ps, convert p o = convert p o' := fun p hp => by
    rw [convert_eq, convert_eq, reading_congr h fun path => outputPaths_subset hassemble hp]
  have hinto : ∀ found, collectInto o found ps = collectInto o' found ps := by
    clear hassemble
    induction ps with
    | nil => exact fun _ => rfl
    | cons p ps ih =>
      rw [List.forall_mem_cons] at hconvert
      intro found
      simp only [collectInto, hconvert.1, ih hconvert.2]
  exact hinto []

/-- **Files go out and come back.** A layer that has a main file and only parts of a layer in a
directory is written to files of different paths, and read back from them. To read a value of any
binding a reader is asked for the listed paths, once each and in order, and its answers for them
decide the result. So runs that agree on the paths of their request have the same outputs. -/
theorem fetched_suffices :
    (∀ (path : String) (layer : Shapefile), layer.parts.Sorted → layer.main?.isSome = true →
      (∀ part ∈ layer.parts, part.1 ∈ Shapefile.extensions) →
        ∃ files, (Value.shapefile layer).toFiles path = .ok files ∧
          (files.map Prod.fst).Nodup ∧
          Id.run (Value.ofFiles .shapefile path fun q => Dict.find? q files) =
            .ok (.shapefile layer)) ∧
    (∀ (binding : Binding) (path : String) (m : Type → Type) [Monad m] [LawfulMonad m]
      (read : String → m (Option Bytes)),
        (∀ asked, (Value.ofFiles binding path (Value.recorded read)).run asked =
          (fun result => (result, asked ++ outputPaths binding path)) <$>
            Value.ofFiles binding path read) ∧
        ∀ read', (∀ q ∈ outputPaths binding path, read q = read' q) →
          Value.ofFiles binding path read = Value.ofFiles binding path read') ∧
    ∀ (unique : Nat → String) (c : Configuration) (inputs : Inputs)
      (selected : List OutputParameter) (r : RunRequest),
        assemble unique c inputs selected = .ok r → ∀ o o' : RunOutput,
          o.AgreesOn r.outputFiles o' → collect selected o = collect selected o' := by
  refine ⟨fun path layer hsorted hmain hextensions => ?_, fun binding path m _ _ read => ⟨?_, ?_⟩,
    fun unique c inputs selected r hr o o' h => collect_congr hr h⟩
  -- A main file is all that writing a layer asks for.
  · obtain ⟨files, hfiles⟩ : ∃ files, (Value.shapefile layer).toFiles path = .ok files :=
      ⟨_, Value.toFiles_shapefile_eq_ok_iff.mpr ⟨hmain, rfl⟩⟩
    exact ⟨files, hfiles, Value.nodup_paths hsorted hfiles,
      Value.ofFiles_toFiles hsorted hextensions hfiles⟩
  · exact Value.run_recorded_ofFiles binding path read
  · exact fun read' => Value.ofFiles_congr

/-! A survey leaves a coast as a layer of two files, and among them a note that nobody asks for. -/

def coast : Shapefile := ⟨[("dbf", [1]), ("shp", [2])]⟩

def coastOutput : OutputParameter :=
  ⟨"coast", none, .shapefile, false, none, none, some (.file "coast")⟩

def coastSurvey : Configuration where
  id := "coast"
  summary := none
  image := "coast"
  workingDirectory := "/"
  command := ["survey"]
  flags := []
  inputs := []
  outputs := [coastOutput]
  stderrHandler := none
  exitValueHandler := none
  stdoutHandler := none

def coastRun : RunOutput := ⟨0, [], [], [("coast", [2]), ("coast.dbf", [1])]⟩

def notedRun : RunOutput := { coastRun with files := coastRun.files.insert "coast.txt" [3] }

/-- A reader that has an answer as often as its number says. -/
def answering (content : Bytes) (_ : String) : StateM Nat (Option Bytes) := fun n =>
  (if n = 0 then none else some content, n - 1)

def everywhere (content : Bytes) (_ : String) : Id (Option Bytes) := pure (some content)

def onlyAt (path : String) (content : Bytes) (q : String) : Id (Option Bytes) :=
  pure (if q = path then some content else none)

theorem fetched_coast :
    (coast.parts.Sorted ∧ coast.main?.isSome = true ∧
      (∀ part ∈ coast.parts, part.1 ∈ Shapefile.extensions) ∧
      ∃ files, (Value.shapefile coast).toFiles "coast.shp" = .ok files ∧
        (files.map Prod.fst).Nodup ∧
        Id.run (Value.ofFiles .shapefile "coast.shp" fun q => Dict.find? q files) =
          .ok (.shapefile coast)) ∧
    (((Value.ofFiles .shapefile "coast" (Value.recorded (answering [2]))).run []).run 1 =
        ((.ok (.shapefile ⟨[("shp", [2])]⟩), ["coast", "coast.shx", "coast.dbf", "coast.prj"]), 0) ∧
      (∀ q ∈ outputPaths .file "coast", everywhere [2] q = onlyAt "coast" [2] q) ∧
      Value.ofFiles .file "coast" (everywhere [2]) =
        Value.ofFiles .file "coast" (onlyAt "coast" [2])) ∧
    ∃ r, assemble (fun _ => "1") coastSurvey [] coastSurvey.outputs = .ok r ∧
      coastRun.AgreesOn r.outputFiles notedRun ∧
      collect coastSurvey.outputs coastRun = collect coastSurvey.outputs notedRun := by
  -- One instance for each part: a layer, two readers, and a run of which more is known.
  obtain ⟨hlayers, hreaders, hruns⟩ := fetched_suffices
  have hsorted : coast.parts.Sorted := by
    unfold Dict.Sorted
    decide
  have hextensions : ∀ part ∈ coast.parts, part.1 ∈ Shapefile.extensions := by decide
  have hlisted : ∀ q ∈ outputPaths .file "coast", everywhere [2] q = onlyAt "coast" [2] q :=
    List.forall_mem_singleton.mpr rfl
  obtain ⟨r, hr, hpaths⟩ : ∃ r, assemble (fun _ => "1") coastSurvey [] coastSurvey.outputs = .ok r ∧
      r.outputFiles = ["coast", "coast.shx", "coast.dbf", "coast.prj"] := ⟨_, rfl, rfl⟩
  have hagrees : coastRun.AgreesOn r.outputFiles notedRun := by
    rw [hpaths]
    exact ⟨rfl, rfl, rfl, by decide⟩
  refine ⟨⟨hsorted, rfl, hextensions, hlayers _ coast hsorted rfl hextensions⟩, ⟨?_, hlisted, ?_⟩,
    r, hr, hagrees, hruns _ _ _ _ r hr _ _ hagrees⟩
  · rw [(hreaders .shapefile "coast" (StateM Nat) (answering [2])).1 []]
    rfl
  · exact (hreaders .file "coast" Id (everywhere [2])).2 _ hlisted

end Run

end CachedRun
