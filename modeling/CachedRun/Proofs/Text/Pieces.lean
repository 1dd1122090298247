import CachedRun.Store.Component
import CachedRun.Text.Blank
import Mathlib.Data.List.Induction

/-!
# Pieces — what stands between separators

A path is cut at its slashes and a stream at its line breaks, both by `splitAt`. Nothing is lost by
that: `joinWith` puts the text together again. **A piece is what stands in the text between two
separators, or between one and an end** (`mem_splitAt_iff`), so what is said about pieces can be
said about places in the text, and the other way round.
-/

set_option autoImplicit false

namespace CachedRun.Text

variable {c : Char} {s piece : List Char}

/-! ## Cutting -/

theorem splitAt_ne_nil (c : Char) (s : List Char) : splitAt c s ≠ [] := by
  cases s with
  | nil => nofun
  | cons d s =>
    rw [splitAt, List.foldr_cons]
    split
    · nofun
    · split <;> nofun

theorem splitAt_cons_self (c : Char) (s : List Char) : splitAt c (c :: s) = [] :: splitAt c s :=
  if_pos rfl

/-- A character that does not separate belongs to the first piece. -/
theorem splitAt_cons_of_ne {d : Char} (h : d ≠ c) {pieces : List (List Char)}
    (hs : splitAt c s = piece :: pieces) : splitAt c (d :: s) = (d :: piece) :: pieces := by
  rw [splitAt, List.foldr_cons, if_neg h, ← splitAt, hs]

theorem splitAt_append (s rest : List Char) :
    splitAt c (s ++ c :: rest) = splitAt c s ++ splitAt c rest := by
  induction s with
  | nil => exact splitAt_cons_self c rest
  | cons d s ih =>
    by_cases h : d = c
    · rw [h, List.cons_append, splitAt_cons_self, splitAt_cons_self, ih, List.cons_append]
    · obtain ⟨piece, pieces, hs⟩ := List.exists_cons_of_ne_nil (splitAt_ne_nil c s)
      rw [hs, List.cons_append] at ih
      rw [List.cons_append, splitAt_cons_of_ne h ih, splitAt_cons_of_ne h hs, List.cons_append]

theorem splitAt_of_not_mem (h : c ∉ s) : splitAt c s = [s] := by
  induction s with
  | nil => rfl
  | cons d s ih =>
    rw [List.mem_cons, not_or] at h
    exact splitAt_cons_of_ne (Ne.symm h.1) (ih h.2)

theorem not_mem_of_mem_splitAt (h : piece ∈ splitAt c s) : c ∉ piece := by
  induction s generalizing piece with
  | nil =>
    rw [List.mem_singleton.mp h]
    exact List.not_mem_nil
  | cons d s ih =>
    by_cases hd : d = c
    · rw [hd, splitAt_cons_self, List.mem_cons] at h
      rcases h with rfl | h
      · exact List.not_mem_nil
      · exact ih h
    · obtain ⟨first, pieces, hs⟩ := List.exists_cons_of_ne_nil (splitAt_ne_nil c s)
      rw [hs] at ih
      rw [splitAt_cons_of_ne hd hs, List.mem_cons] at h
      rcases h with rfl | h
      · rw [List.mem_cons, not_or]
        exact ⟨Ne.symm hd, ih (List.mem_cons_self ..)⟩
      · exact ih (List.mem_cons_of_mem _ h)

/-! ## Joining -/

theorem joinWith_cons {separator : List Char} {pieces : List (List Char)} (h : pieces ≠ []) :
    joinWith separator (piece :: pieces) = piece ++ separator ++ joinWith separator pieces := by
  cases pieces with
  | nil => exact absurd rfl h
  | cons next rest => rfl

theorem joinWith_append_cons (separator : List Char) (before : List (List Char))
    (piece : List Char) (after : List (List Char)) :
    joinWith separator (before ++ piece :: after) =
      before.flatMap (· ++ separator) ++ joinWith separator (piece :: after) := by
  induction before with
  | nil => rfl
  | cons first before ih =>
    rw [List.cons_append, joinWith_cons (by simp), ih, List.flatMap_cons, List.append_assoc,
      List.append_assoc, List.append_assoc]

/-- Nothing is lost where a text is cut. -/
theorem joinWith_splitAt (c : Char) (s : List Char) : joinWith [c] (splitAt c s) = s := by
  induction s with
  | nil => rfl
  | cons d s ih =>
    by_cases hd : d = c
    · rw [hd, splitAt_cons_self, joinWith_cons (splitAt_ne_nil c s), ih]
      rfl
    · obtain ⟨first, pieces, hs⟩ := List.exists_cons_of_ne_nil (splitAt_ne_nil c s)
      rw [hs] at ih
      rw [splitAt_cons_of_ne hd hs, ← ih]
      cases pieces <;> rfl

/-- **A piece is what stands between separators**, or between one and an end. -/
theorem mem_splitAt_iff : piece ∈ splitAt c s ↔ c ∉ piece ∧ ∃ before after,
    s = before ++ (piece ++ after) ∧ (∀ d ∈ before.getLast?, d = c) ∧
      ∀ d ∈ after.head?, d = c := by
  constructor
  · intro h
    refine ⟨not_mem_of_mem_splitAt h, ?_⟩
    obtain ⟨before, after, hs⟩ := List.append_of_mem h
    -- Behind the piece there is nothing, or a separator and the pieces after it.
    have htail : ∃ rest, joinWith [c] (piece :: after) = piece ++ rest ∧
        ∀ d ∈ rest.head?, d = c := by
      cases after with
      | nil => exact ⟨[], by simp [joinWith], by simp⟩
      | cons next after =>
        refine ⟨c :: joinWith [c] (next :: after), ?_, by simp⟩
        rw [joinWith_cons (by simp), List.append_assoc, List.singleton_append]
    obtain ⟨rest, hrest, hstop⟩ := htail
    refine ⟨before.flatMap (· ++ [c]), rest, ?_, ?_, hstop⟩
    · rw [← hrest, ← joinWith_append_cons, ← hs, joinWith_splitAt]
    · cases before using List.reverseRecOn with
      | nil => simp
      | append_singleton before last => simp
  · rintro ⟨hpiece, before, after, rfl, hbefore, hafter⟩
    -- Split from the right: what follows does not touch the piece, and what comes before ends with
    -- a separator.
    have htail : piece ∈ splitAt c (piece ++ after) := by
      cases after with
      | nil => simp [splitAt_of_not_mem hpiece]
      | cons d after =>
        rw [hafter d rfl, splitAt_append, splitAt_of_not_mem hpiece]
        simp
    cases before using List.reverseRecOn with
    | nil => exact htail
    | append_singleton before d =>
      rw [hbefore d (by simp), List.append_assoc, List.singleton_append, splitAt_append]
      exact List.mem_append_right _ htail

end CachedRun.Text
