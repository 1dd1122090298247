import CachedRun.Xml.Token
import CachedRun.Proofs.Text.Blank
import Mathlib.Data.List.Infix

/-!
# Markup — where a piece ends

The lexer looks for the end of a piece of markup in three ways: for a mark, for the `>` outside of
quotes, and for the `>` that no `<` before it has opened. For each there is one statement: given a
content of which that may be said, what is read is the content, whatever follows.

The three differ in what composes. A content that holds a mark nowhere is one whole
(`readUntil_append`). The content of a tag is made of pieces that the reader goes over one by one
(`Passes`), and that of a document type is nested (`Paired`).
-/

set_option autoImplicit false

namespace CachedRun.Xml

/-! ## Marks -/

/-- A mark that a text does not hold is first met behind the text, since no mark begins in the text
and ends in the next one. -/
theorem not_prefix_append {init body : List Char} {last : Char} (hlast : last ∉ init)
    (hbody : ¬ init ++ [last] <:+: body) (hne : body ≠ []) (rest : List Char) :
    ¬ init ++ [last] <+: body ++ (init ++ [last] ++ rest) := by
  intro hpre
  rcases List.prefix_or_prefix_of_prefix hpre (List.prefix_append body _) with hmark | ⟨more, hmore⟩
  -- Either the mark lies in the text, or the text ends inside of it. Then the end of the mark would
  -- stand among its first characters.
  · exact hbody hmark.isInfix
  · rw [← hmore, List.prefix_append_right_inj] at hpre
    have hlength := congrArg List.length hmore
    have hpos := List.length_pos_iff.mpr hne
    rw [List.length_append, List.length_append, List.length_singleton] at hlength
    have hinit : more <+: init := by
      refine List.prefix_of_prefix_length_le hpre ?_ (by omega)
      rw [hmore, List.append_assoc]
      exact List.prefix_append _ _
    cases more using List.reverseRecOn with
    | nil =>
      rw [List.append_nil] at hmore
      exact hbody (hmore ▸ List.infix_refl _)
    | append_singleton more c =>
      rw [← List.append_assoc] at hmore
      have hc : c = last := List.singleton_inj.mp (List.append_inj' hmore rfl).2
      exact hlast (hinit.subset (by simp [hc]))

/-- **A mark is found** behind a text that does not hold it. -/
theorem readUntil_append {init : List Char} {last : Char} (hlast : last ∉ init) :
    ∀ {body : List Char}, ¬ init ++ [last] <:+: body → ∀ rest : List Char,
      readUntil (init ++ [last]) (body ++ (init ++ [last] ++ rest)) = some (body, rest)
  | [], _, rest => by
    obtain ⟨c, mark, hmark⟩ : ∃ c mark, init ++ [last] = c :: mark := by
      cases init <;> exact ⟨_, _, rfl⟩
    rw [List.nil_append, hmark, List.cons_append, readUntil, ← List.cons_append,
      Text.dropStart?_append]
  | c :: body, hbody, rest => by
    have hlater := readUntil_append hlast (fun h => hbody (h.trans (List.infix_cons_iff.mpr
      (.inr (List.infix_refl body))))) rest
    have hnone := Text.dropStart?_eq_none (not_prefix_append hlast hbody nofun rest)
    rw [List.cons_append] at hnone
    rw [List.cons_append, readUntil, hnone, hlater]
    rfl

/-- A mark of one character. -/
theorem readUntil_char {c : Char} {body : List Char} (hbody : c ∉ body) (rest : List Char) :
    readUntil [c] (body ++ c :: rest) = some (body, rest) :=
  @readUntil_append [] c nofun body (fun h => hbody (h.subset (List.mem_singleton.mpr rfl))) rest

/-- What is read up to a mark stands before it. -/
theorem append_of_readUntil {mark s body after : List Char}
    (h : readUntil mark s = some (body, after)) : s = body ++ (mark ++ after) := by
  induction s generalizing body with
  | nil =>
    rw [readUntil] at h
    split at h
    · rename_i hmark
      cases h
      rw [hmark]
      rfl
    · cases h
  | cons c s ih =>
    rw [readUntil] at h
    split at h
    · rename_i hdrop
      cases h
      rw [Text.eq_append_of_dropStart? hdrop, List.nil_append]
    · obtain ⟨⟨inside, after'⟩, hread, heq⟩ := Option.map_eq_some_iff.mp h
      cases heq
      rw [ih hread, List.cons_append]

/-- A mark of one character is found at its first place. -/
theorem not_mem_of_readUntil {c : Char} {s body after : List Char}
    (h : readUntil [c] s = some (body, after)) : c ∉ body := by
  induction s generalizing body with
  | nil => cases h
  | cons d s ih =>
    rw [readUntil] at h
    split at h
    · cases h
      exact List.not_mem_nil
    · rename_i hdrop
      obtain ⟨⟨inside, after'⟩, hread, heq⟩ := Option.map_eq_some_iff.mp h
      cases heq
      rw [List.mem_cons, not_or]
      refine ⟨fun hc => ?_, ih hread⟩
      rw [hc, Text.dropStart?, if_pos rfl] at hdrop
      cases s <;> cases hdrop

/-! ## Tags -/

/-- What has no `>` outside of quotes and no open quote: the reader goes over it. -/
def Passes (s : List Char) : Prop :=
  ∀ rest, readTag none (s ++ rest) = (readTag none rest).map fun (inside, after) =>
    (s ++ inside, after)

namespace Passes

variable {s s' : List Char}

theorem nil : Passes [] := fun rest => by cases h : readTag none rest <;> simp [h]

theorem append (h : Passes s) (h' : Passes s') : Passes (s ++ s') := by
  intro rest
  rw [List.append_assoc, h, h', Option.map_map]
  simp [Function.comp_def]

theorem char {c : Char} (hend : c ≠ '>') (hdouble : c ≠ '"') (hsingle : c ≠ '\'') :
    Passes [c] := by
  intro rest
  simp [readTag, hend, hdouble, hsingle]

theorem of_forall (h : ∀ c ∈ s, c ≠ '>' ∧ c ≠ '"' ∧ c ≠ '\'') : Passes s := by
  induction s with
  | nil => exact nil
  | cons c s ih =>
    rw [List.forall_mem_cons] at h
    exact (char h.1.1 h.1.2.1 h.1.2.2).append (ih h.2)

theorem flatMap {α : Type} {f : α → List Char} {l : List α} (h : ∀ a ∈ l, Passes (f a)) :
    Passes (l.flatMap f) := by
  induction l with
  | nil => exact nil
  | cons a l ih =>
    rw [List.forall_mem_cons] at h
    exact h.1.append (ih h.2)

theorem readTag_quoted {quote : Char} (h : quote ∉ s) (rest : List Char) :
    readTag (some quote) (s ++ quote :: rest) = (readTag none rest).map fun (inside, after) =>
      (s ++ quote :: inside, after) := by
  induction s with
  | nil => simp [readTag]
  | cons c s ih =>
    rw [List.mem_cons, not_or] at h
    rw [List.cons_append, readTag]
    simp [Ne.symm h.1, ih h.2, Function.comp_def]

/-- Between quotes anything may stand but the quote itself. -/
theorem quoted {quote : Char} (hquote : quote = '"' ∨ quote = '\'') (h : quote ∉ s) :
    Passes (quote :: (s ++ [quote])) := by
  intro rest
  have hend : quote ≠ '>' := by rcases hquote with rfl | rfl <;> decide
  rw [List.cons_append, readTag, List.append_assoc, List.singleton_append]
  simp [hend, hquote, readTag_quoted h, Function.comp_def]

end Passes

/-- **The end of a tag** is the first `>` behind what passes. -/
theorem readTag_append {s : List Char} (h : Passes s) (rest : List Char) :
    readTag none (s ++ '>' :: rest) = some (s, rest) := by
  rw [h]
  simp [readTag]

/-! ## Document types -/

/-- A text in which each `<` has a `>` of its own that follows it. -/
inductive Paired : List Char → Prop
  | nil : Paired []
  | char {c : Char} {s : List Char} (hopen : c ≠ '<') (hclose : c ≠ '>') (h : Paired s) :
      Paired (c :: s)
  | nested {inner s : List Char} (hinner : Paired inner) (h : Paired s) :
      Paired ('<' :: (inner ++ '>' :: s))

theorem readDoctype_append {s : List Char} (h : Paired s) : ∀ (depth : Nat) (rest : List Char),
    readDoctype depth (s ++ rest) = (readDoctype depth rest).map fun (inside, after) =>
      (s ++ inside, after) := by
  induction h with
  | nil =>
    intro depth rest
    cases h : readDoctype depth rest <;> simp [h]
  | char hopen hclose _ ih =>
    intro depth rest
    simp [readDoctype, hopen, hclose, ih, Function.comp_def]
  | nested _ _ ihinner ih =>
    intro depth rest
    simp [readDoctype, ihinner, ih, Function.comp_def]

/-- **The end of a document type** is the first `>` behind what is paired. -/
theorem readDoctype_paired {s : List Char} (h : Paired s) (rest : List Char) :
    readDoctype 0 (s ++ '>' :: rest) = some (s, rest) := by
  rw [readDoctype_append h]
  simp [readDoctype]

end CachedRun.Xml
