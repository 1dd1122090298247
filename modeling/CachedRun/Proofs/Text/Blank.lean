import CachedRun.Text.Blank
import Mathlib.Data.List.DropRight
import Mathlib.Data.List.TakeWhile

/-!
# Blanks and endings — what is taken off a text

Taking a known beginning or ending off a text succeeds exactly when it is there, a run ends where
what follows does not go on with it, and `trim` does not see blanks that stand before or behind. A
text is its trimmed text with blanks around it, and a `Trimmed` one is its own. The words of a text
are what stands in it between blanks (`mem_words_iff`).
-/

set_option autoImplicit false

namespace CachedRun.Text

variable {α : Type}

/-! ## Known ends -/

section Ends

variable [DecidableEq α] {start ending s rest : List α}

theorem dropStart?_append (start s : List α) : dropStart? start (start ++ s) = some s := by
  induction start with
  | nil => cases s <;> rfl
  | cons a start ih => rw [List.cons_append, dropStart?, if_pos rfl, ih]

theorem dropEnding?_append (s ending : List α) : dropEnding? ending (s ++ ending) = some s := by
  rw [dropEnding?, List.reverse_append, dropStart?_append, Option.map_some, List.reverse_reverse]

theorem eq_append_of_dropStart? :
    ∀ {start s : List α}, dropStart? start s = some rest → s = start ++ rest
  | [], _, h => Option.some.inj h
  | _ :: _, [], h => nomatch h
  | a :: start, b :: s, h => by
    rw [dropStart?] at h
    split at h
    · rename_i heq
      rw [eq_append_of_dropStart? h, heq, List.cons_append]
    · cases h

theorem eq_append_of_dropEnding? (h : dropEnding? ending s = some rest) : s = rest ++ ending := by
  obtain ⟨reversed, hdropped, rfl⟩ := Option.map_eq_some_iff.mp h
  rw [← List.reverse_inj, eq_append_of_dropStart? hdropped]
  simp

theorem dropStart?_eq_none (h : ¬ start <+: s) : dropStart? start s = none := by
  rw [Option.eq_none_iff_forall_ne_some]
  intro rest hrest
  exact h ⟨rest, (eq_append_of_dropStart? hrest).symm⟩

theorem dropEnding?_eq_none (h : ¬ ending <:+ s) : dropEnding? ending s = none := by
  rw [Option.eq_none_iff_forall_ne_some]
  intro rest hrest
  exact h ⟨rest, (eq_append_of_dropEnding? hrest).symm⟩

theorem isSome_dropStart?_iff : (dropStart? start s).isSome = true ↔ start <+: s := by
  constructor
  · intro h
    obtain ⟨rest, hrest⟩ := Option.isSome_iff_exists.mp h
    exact ⟨rest, (eq_append_of_dropStart? hrest).symm⟩
  · rintro ⟨rest, rfl⟩
    rw [dropStart?_append, Option.isSome_some]

theorem isSome_dropEnding?_iff : (dropEnding? ending s).isSome = true ↔ ending <:+ s := by
  rw [dropEnding?, Option.isSome_map, isSome_dropStart?_iff, List.reverse_prefix]

end Ends

/-! ## Runs -/

/-- A text begins with a run that goes as far as it can. -/
theorem exists_run (p : α → Bool) (s : List α) : ∃ run rest, s = run ++ rest ∧
    (∀ a ∈ run, p a = true) ∧ ∀ a ∈ rest.head?, p a = false := by
  refine ⟨s.takeWhile p, s.dropWhile p, List.takeWhile_append_dropWhile.symm,
    fun _ => List.mem_takeWhile_imp, fun a ha => ?_⟩
  have hstop := List.head?_dropWhile_not p s
  rw [Option.mem_def] at ha
  rw [ha] at hstop
  simpa using hstop

section Runs

variable {p : α → Bool} {s rest : List α} (hs : ∀ a ∈ s, p a = true)
  (hrest : ∀ a ∈ rest.head?, p a = false)
include hs hrest

/-- A run ends where what follows it does not go on with it. -/
theorem takeWhile_append_of_stop : (s ++ rest).takeWhile p = s := by
  rw [List.takeWhile_append_of_pos hs]
  cases rest with
  | nil => rw [List.takeWhile_nil, List.append_nil]
  | cons a rest => rw [List.takeWhile_cons_of_neg (by simp [hrest a rfl]), List.append_nil]

theorem dropWhile_append_of_stop : (s ++ rest).dropWhile p = rest := by
  rw [List.dropWhile_append_of_pos hs]
  cases rest with
  | nil => rfl
  | cons a rest => rw [List.dropWhile_cons_of_neg (by simp [hrest a rfl])]

/-- Two texts that begin with a run, and are the same, have the same run. -/
theorem append_inj_of_stop {s' rest' : List α} (hs' : ∀ a ∈ s', p a = true)
    (hrest' : ∀ a ∈ rest'.head?, p a = false) (h : s ++ rest = s' ++ rest') :
    s = s' ∧ rest = rest' := by
  have htake := congrArg (List.takeWhile p) h
  have hdrop := congrArg (List.dropWhile p) h
  rw [takeWhile_append_of_stop hs hrest, takeWhile_append_of_stop hs' hrest'] at htake
  rw [dropWhile_append_of_stop hs hrest, dropWhile_append_of_stop hs' hrest'] at hdrop
  exact ⟨htake, hdrop⟩

end Runs

section Cuts

variable [DecidableEq α] {a : α} {s s' rest rest' : List α}

/-- Up to a character, all others make a run. -/
theorem forall_ne_of_not_mem (h : a ∉ s) : ∀ b ∈ s, decide (b ≠ a) = true :=
  fun _ hb => decide_eq_true fun heq => h (heq ▸ hb)

/-- A text is cut at the first place of a character in one way only. -/
theorem append_cons_inj (hs : a ∉ s) (hs' : a ∉ s') (h : s ++ a :: rest = s' ++ a :: rest') :
    s = s' ∧ rest = rest' := by
  have hstop {l : List α} : ∀ b ∈ (a :: l).head?, decide (b ≠ a) = false := by
    rintro _ ⟨⟩
    simp
  have hcut := append_inj_of_stop (forall_ne_of_not_mem hs) hstop (forall_ne_of_not_mem hs') hstop h
  exact ⟨hcut.1, (List.cons.inj hcut.2).2⟩

end Cuts

theorem dropEndWhile_of_none {p : α → Bool} {s : List α} (h : ∀ a ∈ s, p a = false) :
    dropEndWhile p s = s := by
  rw [dropEndWhile, ← List.reverse_inj, List.reverse_reverse]
  cases hs : s.reverse with
  | nil => rfl
  | cons a rest =>
    have ha : a ∈ s := List.mem_reverse.mp (hs ▸ List.mem_cons_self ..)
    rw [List.dropWhile_cons_of_neg (by simp [h a ha])]

/-! ## Blanks -/

theorem isBlank_of_isDigit {c : Char} (h : c.isDigit = true) : isBlank c = false := by
  simp only [Char.isDigit, Bool.and_eq_true, decide_eq_true_eq] at h
  have hlow : 48 ≤ c.toNat := h.1
  have hhigh : c.toNat ≤ 57 := h.2
  simp only [isBlank, Bool.or_eq_false_iff, Bool.and_eq_false_iff, decide_eq_false_iff_not,
    beq_eq_false_iff_ne]
  omega

theorem trimStart_of_not_isBlank {s : List Char} (h : ∀ c ∈ s.head?, isBlank c = false) :
    trimStart s = s := by
  cases s with
  | nil => rfl
  | cons c s => rw [trimStart, List.dropWhile_cons_of_neg (by simp [h c rfl])]

theorem dropEndWhile_append {p : α → Bool} {s post : List α} (h : post.all p = true) :
    dropEndWhile p (s ++ post) = dropEndWhile p s := by
  rw [dropEndWhile, List.reverse_append, List.dropWhile_append_of_pos, dropEndWhile]
  simpa using h

variable {pre s post : List Char}

theorem trim_append_left (h : pre.all isBlank = true) : trim (pre ++ s) = trim s := by
  rw [trim, trimStart, List.dropWhile_append_of_pos (by simpa using h), trim, trimStart]

theorem trim_eq_nil (h : s.all isBlank = true) : trim s = [] := by
  rw [← List.append_nil s, trim_append_left h]
  rfl

theorem trim_append_right (h : post.all isBlank = true) : trim (s ++ post) = trim s := by
  by_cases hs : s.all isBlank = true
  · rw [trim_append_left hs, trim_eq_nil h, trim_eq_nil hs]
  · have hstart : trimStart (s ++ post) = trimStart s ++ post := by
      rw [trimStart, List.dropWhile_append, if_neg]
      · rfl
      · rwa [List.isEmpty_iff, List.dropWhile_eq_nil_iff, ← List.all_eq_true]
    rw [trim, hstart, trimEnd, dropEndWhile_append h, trim, trimEnd]

/-! ## Trimmed texts -/

/-- A text without blanks at its ends. -/
structure Trimmed (s : List Char) : Prop where
  first : ∀ c ∈ s.head?, isBlank c = false
  last : ∀ c ∈ s.getLast?, isBlank c = false

theorem Trimmed.of_forall {s : List Char} (h : ∀ c ∈ s, isBlank c = false) : Trimmed s :=
  ⟨fun c hc => h c (List.mem_of_mem_head? hc), fun c hc => h c (List.mem_of_mem_getLast? hc)⟩

theorem exists_dropEndWhile (p : Char → Bool) (s : List Char) :
    ∃ post, s = dropEndWhile p s ++ post ∧ post.all p = true := by
  refine ⟨(s.reverse.takeWhile p).reverse, ?_, ?_⟩
  · rw [dropEndWhile, ← List.reverse_append, List.takeWhile_append_dropWhile, List.reverse_reverse]
  · rw [List.all_reverse]
    exact List.all_takeWhile

theorem getLast?_dropEndWhile (p : Char → Bool) (s : List Char) :
    ∀ c ∈ (dropEndWhile p s).getLast?, p c = false := by
  intro c hc
  rw [dropEndWhile, List.getLast?_reverse] at hc
  have hstop := List.head?_dropWhile_not p s.reverse
  rw [Option.mem_def] at hc
  rw [hc] at hstop
  simpa using hstop

theorem dropEndWhile_of_getLast? {p : Char → Bool} {s : List Char}
    (h : ∀ c ∈ s.getLast?, p c = false) : dropEndWhile p s = s := by
  refine List.rdropWhile_eq_self_iff.mpr fun hne => ?_
  simp [h _ (List.getLast?_eq_some_getLast hne)]

/-- A text is its trimmed text with blanks at the ends. -/
theorem exists_trim (s : List Char) : ∃ pre post, s = pre ++ (trim s ++ post) ∧
    pre.all isBlank = true ∧ post.all isBlank = true := by
  obtain ⟨post, hpost, hblank⟩ := exists_dropEndWhile isBlank (trimStart s)
  refine ⟨s.takeWhile isBlank, post, ?_, List.all_takeWhile, hblank⟩
  rw [trim, trimEnd, ← hpost, trimStart, List.takeWhile_append_dropWhile]

theorem trim_eq_nil_iff : trim s = [] ↔ s.all isBlank = true := by
  refine ⟨fun h => ?_, trim_eq_nil⟩
  obtain ⟨pre, post, heq, hpre, hpost⟩ := exists_trim s
  rw [heq, h, List.nil_append, List.all_append, hpre, hpost]
  rfl

theorem trimmed_trim (s : List Char) : Trimmed (trim s) where
  last := getLast?_dropEndWhile isBlank _
  first := by
    intro c hc
    obtain ⟨post, hpost, -⟩ := exists_dropEndWhile isBlank (trimStart s)
    have hfirst : (dropEndWhile isBlank (trimStart s)).head? = some c := hc
    have hhead : (trimStart s).head? = some c := by
      rw [hpost, List.head?_append, hfirst]
      rfl
    have hstop := List.head?_dropWhile_not isBlank s
    rw [trimStart] at hhead
    rw [hhead] at hstop
    simpa using hstop

section Solid

variable {x : List Char} (hs : s = pre ++ (x ++ post)) (hx : Trimmed x) (hne : x ≠ [])
include hs hx hne

/-- The blanks before a text that is not blank are those of its beginning. -/
theorem first_not_isBlank_iff (h : pre.all isBlank = true) :
    (∀ c ∈ s.head?, isBlank c = false) ↔ pre = [] := by
  subst hs
  cases pre with
  | nil =>
    obtain ⟨c, x, rfl⟩ := List.exists_cons_of_ne_nil hne
    exact iff_of_true hx.first rfl
  | cons c pre =>
    rw [List.all_cons, Bool.and_eq_true] at h
    simp [h.1]

theorem last_not_isBlank_iff (h : post.all isBlank = true) :
    (∀ c ∈ s.getLast?, isBlank c = false) ↔ post = [] := by
  subst hs
  cases post using List.reverseRecOn with
  | nil =>
    rw [List.append_nil, List.getLast?_append_of_ne_nil _ hne]
    exact iff_of_true hx.last rfl
  | append_singleton post c =>
    rw [List.all_append, List.all_cons, Bool.and_eq_true, Bool.and_eq_true] at h
    rw [← List.append_assoc, ← List.append_assoc, List.getLast?_concat]
    simp [h.2.1]

end Solid

theorem Trimmed.append {x y : List Char} (hx : Trimmed x) (hy : Trimmed y) (hxne : x ≠ [])
    (hyne : y ≠ []) (middle : List Char) : Trimmed (x ++ (middle ++ y)) := by
  obtain ⟨c, x, rfl⟩ := List.exists_cons_of_ne_nil hxne
  constructor
  · exact hx.first
  · rw [← List.append_assoc, List.getLast?_append_of_ne_nil _ hyne]
    exact hy.last

theorem Trimmed.trim_eq (h : Trimmed s) : trim s = s := by
  rw [trim, trimStart_of_not_isBlank h.first]
  exact dropEndWhile_of_getLast? h.last

/-- Between two texts that are not blank are the blanks at the end of the first and at the beginning
of the second. -/
theorem exists_seam {l r : List Char} (hl : trim l ≠ []) (hr : trim r ≠ []) : ∃ seam,
    trim (l ++ r) = trim l ++ (seam ++ trim r) ∧ seam.all isBlank = true ∧
      (seam = [] ↔ (∀ c ∈ l.getLast?, isBlank c = false) ∧ ∀ c ∈ r.head?, isBlank c = false) := by
  obtain ⟨pre, left, hleft, hpre, hleftBlank⟩ := exists_trim l
  obtain ⟨right, post, hright, hrightBlank, hpost⟩ := exists_trim r
  refine ⟨left ++ right, ?_, by rw [List.all_append, hleftBlank, hrightBlank]; rfl, ?_⟩
  · have hwhole : l ++ r = pre ++ (trim l ++ ((left ++ right) ++ trim r) ++ post) := by
      conv_lhs => rw [hleft, hright]
      simp only [List.append_assoc]
    rw [hwhole, trim_append_left hpre, trim_append_right hpost]
    exact ((trimmed_trim l).append (trimmed_trim r) hl hr _).trim_eq
  · rw [last_not_isBlank_iff hleft (trimmed_trim l) hl hleftBlank,
      first_not_isBlank_iff hright (trimmed_trim r) hr hrightBlank, List.append_eq_nil_iff]

/-! ## Words -/

/-- A text without blanks that stands between blanks, or at an end. -/
structure IsWord (w s : List Char) : Prop where
  ne_nil : w ≠ []
  solid : ∀ c ∈ w, isBlank c = false
  placed : ∃ before after, s = before ++ (w ++ after) ∧
    (∀ c ∈ before.getLast?, isBlank c = true) ∧ ∀ c ∈ after.head?, isBlank c = true

section Split

variable {p : Char → Bool} {acc w rest : List Char}

theorem splitRuns_append (hw : ∀ c ∈ w, p c = false) :
    splitRuns p acc (w ++ rest) = splitRuns p (w.reverse ++ acc) rest := by
  induction w generalizing acc with
  | nil => rfl
  | cons c w ih =>
    rw [List.forall_mem_cons] at hw
    have hstep : splitRuns p acc (c :: (w ++ rest)) = splitRuns p (c :: acc) (w ++ rest) := by
      cases acc <;> rw [splitRuns] <;> simp [hw.1]
    rw [List.cons_append, hstep, ih hw.2, List.reverse_cons, List.append_assoc]
    rfl

/-- A piece ends where what follows ends it. -/
theorem splitRuns_of_stop (hne : acc ≠ []) (hrest : ∀ c ∈ rest.head?, p c = true) :
    splitRuns p acc rest = acc.reverse :: splitRuns p [] rest := by
  obtain ⟨d, acc, rfl⟩ := List.exists_cons_of_ne_nil hne
  cases rest with
  | nil => simp [splitRuns]
  | cons c rest => simp [splitRuns, hrest c rfl]

end Split

/-- A solid text in front of a blank is the first word. -/
theorem words_append {w rest : List Char} (hne : w ≠ []) (hw : ∀ c ∈ w, isBlank c = false)
    (hrest : ∀ c ∈ rest.head?, isBlank c = true) : words (w ++ rest) = w :: words rest := by
  rw [words, splitRuns_append hw, List.append_nil,
    splitRuns_of_stop (List.reverse_ne_nil_iff.mpr hne) hrest, List.reverse_reverse, ← words]

/-- Behind a blank, or at the beginning, the words of a text are there. -/
theorem mem_splitRuns_append {acc before w s : List Char} (hacc : before = [] → acc = [])
    (hbefore : ∀ c ∈ before.getLast?, isBlank c = true) (h : w ∈ words s) :
    w ∈ splitRuns isBlank acc (before ++ s) := by
  induction before generalizing acc with
  | nil => rwa [hacc rfl]
  | cons c before ih =>
    have hlast : ∀ d ∈ before.getLast?, isBlank d = true := by
      intro d hd
      cases before with
      | nil => cases hd
      | cons e before => exact hbefore d (by rwa [List.getLast?_cons_cons])
    -- A blank closes the word that was open, and any other character goes on with it.
    by_cases hc : isBlank c = true
    · have hrest : w ∈ splitRuns isBlank [] (c :: (before ++ s)) := by
        rw [splitRuns, if_pos hc]
        exact ih (fun _ => rfl) hlast
      by_cases hnil : acc = []
      · rwa [hnil]
      · rw [List.cons_append, splitRuns_of_stop hnil (by rintro _ ⟨⟩; exact hc)]
        exact List.mem_cons_of_mem _ hrest
    · have hne : before ≠ [] := by
        rintro rfl
        exact hc (hbefore c rfl)
      rw [List.cons_append, ← List.singleton_append, splitRuns_append (by simpa using hc)]
      exact ih (fun hnil => absurd hnil hne) hlast

theorem words_blank_append {blanks : List Char} (h : ∀ c ∈ blanks, isBlank c = true)
    (s : List Char) : words (blanks ++ s) = words s := by
  induction blanks with
  | nil => rfl
  | cons c blanks ih =>
    rw [List.forall_mem_cons] at h
    rw [List.cons_append, words, splitRuns, if_pos h.1, ← words, ih h.2]

/-- A word of what begins with a blank is a word with anything in front. -/
theorem IsWord.append {w s : List Char} (h : IsWord w s) (hs : ∀ c ∈ s.head?, isBlank c = true)
    (front : List Char) : IsWord w (front ++ s) := by
  obtain ⟨hne, hsolid, before, after, rfl, hbefore, hafter⟩ := h
  refine ⟨hne, hsolid, front ++ before, after, (List.append_assoc ..).symm, ?_, hafter⟩
  cases before with
  | nil =>
    obtain ⟨c, w, rfl⟩ := List.exists_cons_of_ne_nil hne
    have hblank := hs c rfl
    rw [hsolid c (List.mem_cons_self ..)] at hblank
    cases hblank
  | cons c before =>
    rwa [List.getLast?_append_of_ne_nil _ (List.cons_ne_nil c before)]

/-- The words of a text are found by cutting off blanks and a word in front of the rest. -/
theorem isWord_of_mem_words {w s : List Char} (h : w ∈ words s) : IsWord w s := by
  induction hlength : s.length using Nat.strongRecOn generalizing s with
  | ind n ih =>
    -- The rest is no tail of the recursion, so the induction is on the length.
    obtain ⟨blanks, t, rfl, hblanks, ht⟩ := exists_run isBlank s
    obtain ⟨first, rest, rfl, hfirst, hrest⟩ := exists_run (fun c => !isBlank c) t
    simp only [Bool.not_eq_true', Bool.not_eq_false'] at hfirst hrest
    rw [words_blank_append hblanks] at h
    cases first with
    | nil =>
      cases rest with
      | nil => cases h
      | cons c rest =>
        have hsolid := ht c rfl
        rw [hrest c rfl] at hsolid
        cases hsolid
    | cons c first =>
      rw [words_append (List.cons_ne_nil c first) hfirst hrest] at h
      rcases List.mem_cons.mp h with rfl | h
      · exact ⟨List.cons_ne_nil c first, hfirst, blanks, rest, rfl,
          fun d hd => hblanks d (List.mem_of_getLast? hd), hrest⟩
      · have hshort : rest.length < n := by
          simp only [List.length_append, List.length_cons] at hlength
          omega
        have hword := (ih _ hshort h rfl).append hrest (blanks ++ c :: first)
        rwa [List.append_assoc] at hword

/-- **The words of a text are what stands between blanks.** -/
theorem mem_words_iff {w s : List Char} : w ∈ words s ↔ IsWord w s := by
  refine ⟨isWord_of_mem_words, ?_⟩
  rintro ⟨hne, hsolid, before, after, rfl, hbefore, hafter⟩
  refine mem_splitRuns_append (fun _ => rfl) hbefore ?_
  rw [words_append hne hsolid hafter]
  exact List.mem_cons_self ..

end CachedRun.Text
