import CachedRun.Proofs.Run.Assembly

/-!
# Names — what generated names reach

A file whose path the program is told may have a name that is made for one run, so two runs of one
request need not be the same. Generated names stay out of keys, and a result that was made under one
name is given to a request that would have had another. That is right for a runner that
`IgnoresNames`.

The names reach the words of the command line and the paths of files, and nothing else. Hence a
runner that looks only at the `contents` of a run ignores them, whatever the configuration is
(`ignoresNames_of_contents`).
-/

set_option autoImplicit false

namespace CachedRun

open Result

/-- A runner does not tell apart the runs of one request that differ only in their generated names,
as long as the names are made of texts of a class. -/
def IgnoresNames (runner : RunRequest → Except Fault RunOutput) (c : Configuration)
    (U : (Nat → String) → Prop) : Prop :=
  ∀ u u' inputs requested r s, U u → U u' →
    Run.assemble u c inputs (Run.selected c requested) = .ok r →
    Run.assemble u' c inputs (Run.selected c requested) = .ok s → runner r = runner s

theorem IgnoresNames.mono {runner : RunRequest → Except Fault RunOutput} {c : Configuration}
    {U V : (Nat → String) → Prop} (h : IgnoresNames runner c V) (hUV : ∀ u, U u → V u) :
    IgnoresNames runner c U :=
  fun u u' i requested r s hu hu' => h u u' i requested r s (hUV u hu) (hUV u' hu')

/-! ## Contents -/

theorem Value.contents_of_toFiles {v : Value} {path path' : String}
    {files files' : List (String × Bytes)} (h : v.toFiles path = .ok files)
    (h' : v.toFiles path' = .ok files') : files.map Prod.snd = files'.map Prod.snd := by
  by_cases hs : v.binding = .shapefile
  · obtain ⟨layer, rfl⟩ := Value.eq_shapefile hs
    obtain ⟨-, rfl⟩ := Value.toFiles_shapefile_eq_ok_iff.mp h
    obtain ⟨-, rfl⟩ := Value.toFiles_shapefile_eq_ok_iff.mp h'
    simp only [List.map_map, Function.comp_def]
  · rw [Value.toFiles_of_binding_ne hs, map_eq_ok_iff] at h h'
    obtain ⟨b, hb, rfl⟩ := h
    obtain ⟨b', hb', rfl⟩ := h'
    rw [hb, Except.ok.injEq] at hb'
    rw [hb']
    rfl

/-- What a generated name does not reach: standard input, and the contents of files. -/
def RunRequest.contents (r : RunRequest) : Bytes × List Bytes :=
  (r.stdin, r.inputFiles.map Prod.snd)

theorem Run.contents_of_inputPart {u u' : String} {p : InputParameter} {v : Option Value}
    {x y : Part} (h : inputPart u p v = .ok x) (h' : inputPart u' p v = .ok y) :
    x.stdin = y.stdin ∧ x.files.map Prod.snd = y.files.map Prod.snd := by
  simp only [inputPart, bind_eq_ok_iff] at h h'
  obtain ⟨d, hd, h⟩ := h
  obtain ⟨d', hd', h'⟩ := h'
  rw [hd, Except.ok.injEq] at hd'
  subst hd'
  cases v with
  | none =>
    cases h
    cases h'
    exact ⟨rfl, rfl⟩
  | some v =>
    cases d with
    | argument flag | stdin =>
      simp only [partOf] at h h'
      rw [h, Except.ok.injEq] at h'
      rw [h']
      exact ⟨rfl, rfl⟩
    -- The path may hold the generated name, but what is written under it does not.
    | file path argument =>
      simp only [partOf, bind_eq_ok_iff, pure, Except.pure, Except.ok.injEq] at h h'
      obtain ⟨files, hfiles, rfl⟩ := h
      obtain ⟨files', hfiles', rfl⟩ := h'
      exact ⟨rfl, Value.contents_of_toFiles hfiles hfiles'⟩

theorem Run.contents_of_inputParts {u u' : Nat → String} {i : Inputs} {ps : List InputParameter}
    {place : Nat} {xs ys : List Part} (h : inputParts u i place ps = .ok xs)
    (h' : inputParts u' i place ps = .ok ys) :
    xs.flatMap Part.stdin = ys.flatMap Part.stdin ∧
      (xs.flatMap Part.files).map Prod.snd = (ys.flatMap Part.files).map Prod.snd := by
  induction ps generalizing place xs ys with
  | nil =>
    cases h
    cases h'
    exact ⟨rfl, rfl⟩
  | cons p ps ih =>
    simp only [inputParts, bind_eq_ok_iff, pure, Except.pure, Except.ok.injEq] at h h'
    obtain ⟨x, hx, xs, hxs, rfl⟩ := h
    obtain ⟨y, hy, ys, hys, rfl⟩ := h'
    obtain ⟨hstdin, hfiles⟩ := contents_of_inputPart hx hy
    obtain ⟨hstdins, hothers⟩ := ih hxs hys
    simp only [List.flatMap_cons, List.map_append, hstdin, hfiles, hstdins, hothers, and_self]

/-- A program that looks at no path cannot tell generated names apart. -/
theorem ignoresNames_of_contents (f : Bytes × List Bytes → Except Fault RunOutput)
    (c : Configuration) (U : (Nat → String) → Prop) :
    IgnoresNames (fun r => f r.contents) c U := by
  intro u u' i requested r s _ _ hr hs
  obtain ⟨xs, _, hxs, -, rfl⟩ := Run.assemble_eq_ok_iff.mp hr
  obtain ⟨ys, _, hys, -, rfl⟩ := Run.assemble_eq_ok_iff.mp hs
  obtain ⟨hstdin, hfiles⟩ := Run.contents_of_inputParts hxs hys
  simp only [RunRequest.contents, hstdin, hfiles]

end CachedRun
