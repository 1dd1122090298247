import CachedRun.Convert
import CachedRun.Proofs.Dict
import CachedRun.Proofs.Result
import CachedRun.Proofs.Text.Blank

/-!
# Files — what a value is written to and read back from

A layer is several files with one stem. Their names are made three times over: when the layer is
written, when it is read back, and when the paths that may be there are listed. All three go through
`sidecarPath`, which is the path itself for the main file and **keeps extensions apart under every
path** (`sidecarPath_injective`), with an ending `.shp` or without one. So what is written under a
path is read back from it (`ofFiles_toFiles`).

A reader need not be a function: it may have effects, and answer differently each time. A value is
read by asking for the listed paths, once each and in order, and for nothing else
(`run_recorded_ofFiles`); and two readers that agree on these paths give one result
(`ofFiles_congr`).
-/

set_option autoImplicit false

namespace CachedRun

open Result

variable {path extension : String} {files : List (String × Bytes)}

/-! ## Names of the files of a layer -/

/-- The path of a layer is that of its main file. -/
theorem sidecarPath_main (path : String) : sidecarPath path "shp" = path := by
  unfold sidecarPath
  split
  · rename_i stem hstem
    rw [← String.toList_inj, String.toList_append, String.toList_append, String.toList_ofList,
      Text.eq_append_of_dropEnding? hstem, List.append_assoc]
    rfl
  · rfl

/-- **The files of a layer have different names.** -/
theorem sidecarPath_injective (path : String) : Function.Injective (sidecarPath path) := by
  intro e e' h
  have hne : ∀ e : String, path ++ "." ++ e ≠ path := by
    intro e he
    have hlen := congrArg String.length he
    have hdot : ".".length = 1 := rfl
    rw [String.length_append, String.length_append] at hlen
    omega
  unfold sidecarPath at h
  split at h
  · exact (String.append_right_inj _).mp h
  · split_ifs at h with h₁ h₂ h₂
    · rw [h₁, h₂]
    · exact absurd h.symm (hne e')
    · exact absurd h (hne e)
    · exact (String.append_right_inj _).mp h

theorem sidecarPath_eq_self_iff : sidecarPath path extension = path ↔ extension = "shp" := by
  conv_lhs => rhs; rw [← sidecarPath_main path]
  exact (sidecarPath_injective path).eq_iff

namespace Value

variable {layer : Shapefile} {v : Value} {binding : Binding}

/-! ## Written files -/

theorem eq_shapefile (h : v.binding = .shapefile) : ∃ layer, v = .shapefile layer := by
  cases v <;> simp only [Value.binding, reduceCtorEq] at h
  exact ⟨_, rfl⟩

/-- What is no layer is one file. -/
theorem toFiles_of_binding_ne (h : v.binding ≠ .shapefile) (path : String) :
    v.toFiles path = v.toBytes.map fun b => [(path, b)] := by
  cases v <;> first | rfl | exact absurd rfl h

/-- A layer is written as one file for each part, if it has a main file. -/
theorem toFiles_shapefile_eq_ok_iff : (Value.shapefile layer).toFiles path = .ok files ↔
    layer.main?.isSome = true ∧
      (layer.parts.map fun part => (sidecarPath path part.1, part.2)) = files := by
  simp only [toFiles, bind_eq_ok_iff, pure, Except.pure, Except.ok.injEq, mainFile]
  cases layer.main? with
  | none => simp
  | some content => simp

/-- Files of different paths, if the parts have different extensions. -/
theorem nodup_paths (hsorted : layer.parts.Sorted)
    (h : (Value.shapefile layer).toFiles path = .ok files) : (files.map Prod.fst).Nodup := by
  obtain ⟨-, rfl⟩ := toFiles_shapefile_eq_ok_iff.mp h
  have hpaths : (layer.parts.map fun part => (sidecarPath path part.1, part.2)).map Prod.fst =
      (layer.parts.map Prod.fst).map (sidecarPath path) := by
    rw [List.map_map, List.map_map]
    rfl
  rw [hpaths]
  exact hsorted.nodup_keys.map (sidecarPath_injective path)

/-- A value is written to one file of a path, with the bytes of the value. Of a layer these are the
main file. -/
def IsWrittenAt (v : Value) (path : String) (files : List (String × Bytes)) : Prop :=
  ∃ content, v.toBytes = .ok content ∧
    (∀ layer, v = .shapefile layer → layer.parts.find? "shp" = some content) ∧
    files.filter (fun file => file.1 = path) = [(path, content)]

/-- **A value is written at its path**, whatever else a layer is written to. -/
theorem isWrittenAt_of_toFiles (hlayer : ∀ layer, v = .shapefile layer → layer.parts.Sorted)
    (h : v.toFiles path = .ok files) : v.IsWrittenAt path files := by
  by_cases hbinding : v.binding = .shapefile
  · obtain ⟨layer, rfl⟩ := eq_shapefile hbinding
    obtain ⟨hmain, rfl⟩ := toFiles_shapefile_eq_ok_iff.mp h
    obtain ⟨content, hcontent⟩ := Option.isSome_iff_exists.mp hmain
    refine ⟨content, ?_, ?_, ?_⟩
    · rw [toBytes, mainFile, hcontent]
    · rintro _ ⟨⟩
      exact hcontent
    · simp only [List.filter_map, Function.comp_def, sidecarPath_eq_self_iff]
      rw [Dict.filter_of_find? (hlayer layer rfl).nodup_keys hcontent, List.map_singleton,
        sidecarPath_main]
  · rw [toFiles_of_binding_ne hbinding, map_eq_ok_iff] at h
    obtain ⟨content, hcontent, rfl⟩ := h
    refine ⟨content, hcontent, ?_, by simp⟩
    rintro layer rfl
    exact absurd rfl hbinding

/-! ## Files read back -/

theorem run_readParts_cons (read : String → Id (Option Bytes)) (path first : String)
    (rest : List String) : (readParts read path (first :: rest)).run =
      match (read (sidecarPath path first)).run with
      | some content => Dict.insert first content (readParts read path rest).run
      | none => (readParts read path rest).run := rfl

/-- What is read of the parts of a layer is what their files hold. -/
theorem find?_readParts (read : String → Id (Option Bytes)) (path : String)
    (extensions : List String) (extension : String) :
    Dict.find? extension (readParts read path extensions).run =
      if extension ∈ extensions then (read (sidecarPath path extension)).run else none := by
  induction extensions with
  | nil => rfl
  | cons first rest ih =>
    rw [run_readParts_cons]
    -- The part itself may be missing here and come again later; any other leaves it as it is.
    by_cases hfirst : first = extension
    · subst hfirst
      rw [if_pos (List.mem_cons_self ..)]
      cases hread : (read (sidecarPath path first)).run with
      | some content => exact Dict.find?_insert_self ..
      | none =>
        rw [ih]
        split
        · exact hread
        · rfl
    · have hmem : extension ∈ first :: rest ↔ extension ∈ rest := by
        rw [List.mem_cons, or_iff_right (Ne.symm hfirst)]
      simp only [hmem, ← ih]
      cases (read (sidecarPath path first)).run with
      | some content => rw [Dict.find?_insert, if_neg hfirst]
      | none => rfl

/-- The parts that are read are in order. -/
theorem sorted_readParts (read : String → Id (Option Bytes)) (path : String)
    (extensions : List String) : Dict.Sorted (readParts read path extensions).run := by
  induction extensions with
  | nil => exact List.Pairwise.nil
  | cons first rest ih =>
    rw [run_readParts_cons]
    cases (read (sidecarPath path first)).run with
    | some content => exact ih.insert
    | none => exact ih

/-- A layer is read if each of its parts is under the name of its extension, and nothing is under the
names of the others. -/
theorem ofFiles_shapefile {read : String → Id (Option Bytes)} (hsorted : layer.parts.Sorted)
    (hmain : layer.main?.isSome = true)
    (hextensions : ∀ part ∈ layer.parts, part.1 ∈ Shapefile.extensions)
    (hread : ∀ extension ∈ Shapefile.extensions,
      (read (sidecarPath path extension)).run = layer.parts.find? extension) :
    (ofFiles .shapefile path read).run = .ok (.shapefile layer) := by
  have hparts : (readParts read path Shapefile.extensions).run = layer.parts := by
    refine (sorted_readParts read path _).ext hsorted fun extension => ?_
    rw [find?_readParts]
    split
    · rename_i hextension
      exact hread extension hextension
    · rename_i hother
      cases hfound : Dict.find? extension layer.parts with
      | none => rfl
      | some content => exact absurd (hextensions _ (Dict.mem_of_find? hfound)) hother
  change (if (Shapefile.main? ⟨(readParts read path Shapefile.extensions).run⟩).isNone then _
    else Except.ok (Value.shapefile ⟨(readParts read path Shapefile.extensions).run⟩)) = _
  rw [hparts, if_neg]
  rw [Option.isNone_iff_eq_none, ← ne_eq, Option.ne_none_iff_isSome]
  exact hmain

/-- **A layer is read back from the files that it was written to**, if it has no parts but those of
a layer in a directory. -/
theorem ofFiles_toFiles (hsorted : layer.parts.Sorted)
    (hextensions : ∀ part ∈ layer.parts, part.1 ∈ Shapefile.extensions)
    (h : (Value.shapefile layer).toFiles path = .ok files) :
    Id.run (ofFiles .shapefile path fun q => Dict.find? q files) = .ok (.shapefile layer) := by
  obtain ⟨hmain, rfl⟩ := toFiles_shapefile_eq_ok_iff.mp h
  exact ofFiles_shapefile hsorted hmain hextensions fun _ _ =>
    Dict.find?_map_keys (sidecarPath_injective path)

/-! ## What is asked for -/

section Asked

variable {m : Type → Type} [Monad m] {read read' : String → m (Option Bytes)}

/-- A reader that writes down the paths that it is asked for. -/
def recorded (read : String → m (Option Bytes)) (path : String) :
    StateT (List String) m (Option Bytes) := do
  modify fun asked => asked ++ [path]
  read path

theorem run_recorded [LawfulMonad m] (read : String → m (Option Bytes)) (path : String)
    (asked : List String) : (recorded read path).run asked =
      (fun content => (content, asked ++ [path])) <$> read path := by
  simp [recorded]

theorem run_recorded_readParts [LawfulMonad m] (read : String → m (Option Bytes)) (path : String)
    (extensions asked : List String) : (readParts (recorded read) path extensions).run asked =
      (fun parts => (parts, asked ++ extensions.map (sidecarPath path))) <$>
        readParts read path extensions := by
  induction extensions generalizing asked with
  | nil => simp [readParts]
  | cons first rest ih => simp [readParts, run_recorded, ih]

/-- **The listed paths are asked for**, once each and in order, and no other. -/
theorem run_recorded_ofFiles [LawfulMonad m] (binding : Binding) (path : String)
    (read : String → m (Option Bytes)) (asked : List String) :
    (ofFiles binding path (recorded read)).run asked =
      (fun result => (result, asked ++ outputPaths binding path)) <$> ofFiles binding path read := by
  unfold ofFiles outputPaths
  by_cases hlayer : binding = .shapefile
  · simp [hlayer, run_recorded_readParts]
  · simp only [if_neg hlayer, StateT.run_bind, run_recorded, map_eq_pure_bind, bind_assoc,
      pure_bind]
    refine bind_congr fun content => ?_
    cases content <;> simp

theorem readParts_congr {extensions : List String}
    (h : ∀ extension ∈ extensions, read (sidecarPath path extension) =
      read' (sidecarPath path extension)) :
    readParts read path extensions = readParts read' path extensions := by
  induction extensions with
  | nil => rfl
  | cons first rest ih =>
    rw [List.forall_mem_cons] at h
    rw [readParts, readParts, h.1, ih h.2]

/-- **The answers for the listed paths decide the result.** -/
theorem ofFiles_congr (h : ∀ q ∈ outputPaths binding path, read q = read' q) :
    ofFiles binding path read = ofFiles binding path read' := by
  unfold ofFiles
  unfold outputPaths at h
  by_cases hlayer : binding = .shapefile
  · rw [if_pos hlayer, if_pos hlayer]
    rw [if_pos hlayer, List.forall_mem_map] at h
    rw [readParts_congr h]
  · rw [if_neg hlayer, if_neg hlayer]
    rw [if_neg hlayer, List.forall_mem_singleton] at h
    rw [h]

end Asked

end Value

end CachedRun
