import CachedRun.Xml.Tag
import CachedRun.Proofs.Result
import CachedRun.Proofs.Xml.Markup
import Mathlib.Data.List.Nodup

/-!
# Assignments — attributes as they are read

The reader of a tag is forgiving: it asks of the name of an attribute only that it begins with no
blank and goes on without blanks and equals signs. An `Assignment` is what it takes for an attribute,
given by its parts and with the blanks before it.

**A tag holds attributes exactly if it is a row of assignments with blanks behind them**: such a row
is read (`readAttributes_flatMap`), and what is read is such a row (`exists_assignments`).
-/

set_option autoImplicit false

namespace CachedRun.Xml

/-- What may be the name of an attribute for a reader that does not validate. -/
structure IsLoose (name : List Char) : Prop where
  ne_nil : name ≠ []
  first : ∀ c ∈ name.head?, isSpace c = false
  rest : ∀ c ∈ name.tail, c ≠ '=' ∧ isSpace c = false

/-- An attribute with the blanks before it. -/
structure Assignment where
  before : List Char
  isBefore : before.all isSpace = true
  name : List Char
  isLoose : IsLoose name
  left : List Char
  isLeft : left.all isSpace = true
  right : List Char
  isRight : right.all isSpace = true
  quote : Char
  isQuote : quote = '"' ∨ quote = '\''
  value : List Char
  unquoted : quote ∉ value

namespace Assignment

variable (w : Assignment)

def body : List Char :=
  w.name ++ (w.left ++ '=' :: (w.right ++ w.quote :: (w.value ++ [w.quote])))

def text : List Char := w.before ++ w.body

/-- The name and the value. -/
def pair : List Char × List Char := (w.name, w.value)

theorem head?_body {rest : List Char} : ∀ c ∈ (w.body ++ rest).head?, isSpace c = false := by
  obtain ⟨c, name, hname⟩ := List.exists_cons_of_ne_nil w.isLoose.ne_nil
  intro d hd
  rw [body, hname] at hd
  exact w.isLoose.first d (hname ▸ hd)

theorem dropWhile_text (rest : List Char) :
    (w.text ++ rest).dropWhile isSpace = w.body ++ rest := by
  rw [text, List.append_assoc]
  exact Text.dropWhile_append_of_stop (List.all_eq_true.mp w.isBefore) w.head?_body

/-- **An assignment is read** off the front of what follows it. -/
theorem readAttribute_body (rest : List Char) :
    readAttribute (w.body ++ rest) = some (w.pair, rest) := by
  obtain ⟨first, name, hname⟩ := List.exists_cons_of_ne_nil w.isLoose.ne_nil
  -- Where each run of the reader ends: the name at a blank or the sign, the blanks behind both.
  have hrun : ∀ c ∈ name, (!(c == '=' || isSpace c)) = true := by
    intro c hc
    have hrest := w.isLoose.rest c (hname ▸ hc)
    simp [hrest.1, hrest.2]
  have hstop {more : List Char} :
      ∀ c ∈ (w.left ++ '=' :: more).head?, (!(c == '=' || isSpace c)) = false := by
    intro c hc
    cases hleft : w.left with
    | nil =>
      rw [hleft] at hc
      cases hc
      rfl
    | cons d left =>
      have hd : isSpace d = true := List.all_eq_true.mp w.isLeft d (hleft ▸ List.mem_cons_self ..)
      rw [hleft] at hc
      cases hc
      rw [hd, Bool.or_true, Bool.not_true]
  have hsign {more : List Char} : (w.left ++ '=' :: more).dropWhile isSpace = '=' :: more :=
    Text.dropWhile_append_of_stop (List.all_eq_true.mp w.isLeft) (by rintro _ ⟨⟩; rfl)
  have hquote {more : List Char} : (w.right ++ w.quote :: more).dropWhile isSpace =
      w.quote :: more := by
    refine Text.dropWhile_append_of_stop (List.all_eq_true.mp w.isRight) ?_
    rintro _ ⟨⟩
    rcases w.isQuote with h | h <;> rw [h] <;> rfl
  have hvalue := readUntil_char w.unquoted rest
  rw [body, pair, hname]
  simp only [List.cons_append, List.append_assoc, List.nil_append, readAttribute,
    Text.takeWhile_append_of_stop hrun hstop, Text.dropWhile_append_of_stop hrun hstop, hsign,
    hquote]
  rcases w.isQuote with h | h <;> rw [h] at hvalue ⊢ <;> simp [hvalue]

end Assignment

/-- An assignment ends in one place only. -/
theorem Assignment.append_inj {w v : Assignment} {s t : List Char}
    (h : w.text ++ s = v.text ++ t) : w.text = v.text ∧ s = t := by
  have hbody := congrArg (List.dropWhile isSpace) h
  rw [w.dropWhile_text, v.dropWhile_text] at hbody
  have hread := w.readAttribute_body s
  rw [hbody, v.readAttribute_body, Option.some.injEq, Prod.mk.injEq] at hread
  obtain ⟨-, rfl⟩ := hread
  exact ⟨List.append_cancel_right h, rfl⟩

/-- **What is read as an attribute** is an assignment. The text is taken apart into the runs that
the reader goes over, each up to a character that ends it. -/
theorem exists_assignment {before s after : List Char} {pair : List Char × List Char}
    (hbefore : before.all isSpace = true) (hfirst : ∀ c ∈ s.head?, isSpace c = false)
    (h : readAttribute s = some (pair, after)) :
    ∃ w : Assignment, before ++ s = w.text ++ after ∧ w.pair = pair := by
  cases s with
  | nil => cases h
  | cons first s =>
    -- A name, blanks, the sign, blanks and a quote, each a run up to a character that stops it.
    obtain ⟨name, s, rfl, hname, hstop⟩ := Text.exists_run (fun c => !(c == '=' || isSpace c)) s
    obtain ⟨left, s, rfl, hleft, hsign⟩ := Text.exists_run isSpace s
    simp only [readAttribute, Text.takeWhile_append_of_stop hname hstop,
      Text.dropWhile_append_of_stop hname hstop, Text.dropWhile_append_of_stop hleft hsign] at h
    split at h
    case h_2 => cases h
    case h_1 s =>
    obtain ⟨right, s, rfl, hright, hquote⟩ := Text.exists_run isSpace s
    rw [Text.dropWhile_append_of_stop hright hquote] at h
    have hloose : IsLoose (first :: name) :=
      ⟨nofun, hfirst, fun c hc => by simpa using hname c hc⟩
    -- Both quotes are read alike: the value goes up to the next one of the same kind.
    have hvalue {q : Char} {s : List Char} (hq : q = '"' ∨ q = '\'')
        (h : (readUntil [q] s).map (fun found => ((first :: name, found.1), found.2)) =
          some (pair, after)) : ∃ w : Assignment,
        before ++ first :: (name ++ (left ++ '=' :: (right ++ q :: s))) = w.text ++ after ∧
          w.pair = pair := by
      obtain ⟨⟨value, after'⟩, hread, heq⟩ := Option.map_eq_some_iff.mp h
      cases heq
      have hunquoted := not_mem_of_readUntil hread
      rw [append_of_readUntil hread]
      refine ⟨⟨before, hbefore, first :: name, hloose, left, List.all_eq_true.mpr hleft, right,
        List.all_eq_true.mpr hright, q, hq, value, hunquoted⟩, ?_, rfl⟩
      simp [Assignment.text, Assignment.body]
    split at h
    · exact hvalue (.inl rfl) h
    · exact hvalue (.inr rfl) h
    · cases h

/-! ## Rows of assignments -/

theorem readAttributes_blank {s : List Char} (h : s.all isSpace = true) (n : Nat) :
    readAttributes n s = some [] := by
  have hnone : s.dropWhile isSpace = [] := List.dropWhile_eq_nil_iff.mpr (List.all_eq_true.mp h)
  cases n <;> simp [readAttributes, hnone]

section Solid

variable {before s : List Char} (hbefore : ∀ c ∈ before, isSpace c = true)
  (hfirst : ∀ c ∈ s.head?, isSpace c = false) (hne : s ≠ [])
include hbefore hfirst hne

theorem readAttributes_zero : readAttributes 0 (before ++ s) = none := by
  obtain ⟨c, s, rfl⟩ := List.exists_cons_of_ne_nil hne
  simp only [readAttributes.eq_def, Text.dropWhile_append_of_stop hbefore hfirst]

theorem readAttributes_succ (n : Nat) : readAttributes (n + 1) (before ++ s) =
    (readAttribute s).bind fun found => (readAttributes n found.2).map (found.1 :: ·) := by
  obtain ⟨c, s, rfl⟩ := List.exists_cons_of_ne_nil hne
  rw [readAttributes.eq_def]
  simp only [Text.dropWhile_append_of_stop hbefore hfirst, Option.map_eq_bind]
  rfl

end Solid

theorem Assignment.body_ne_nil (w : Assignment) (rest : List Char) : w.body ++ rest ≠ [] := by
  obtain ⟨c, name, hname⟩ := List.exists_cons_of_ne_nil w.isLoose.ne_nil
  rw [body, hname]
  nofun

theorem exists_of_blank {n : Nat} {s : List Char} {pairs : List (List Char × List Char)}
    (hs : s.all isSpace = true) (h : readAttributes n s = some pairs) :
    ∃ (ws : List Assignment) (after : List Char), s = ws.flatMap Assignment.text ++ after ∧
      after.all isSpace = true ∧ pairs = ws.map Assignment.pair := by
  rw [readAttributes_blank hs] at h
  cases h
  exact ⟨[], s, rfl, hs, rfl⟩

/-- **A row of assignments is read.** -/
theorem readAttributes_flatMap {after : List Char} (hafter : after.all isSpace = true)
    {ws : List Assignment} {n : Nat} (h : ws.length ≤ n) :
    readAttributes n (ws.flatMap Assignment.text ++ after) = some (ws.map Assignment.pair) := by
  induction ws generalizing n with
  | nil => exact readAttributes_blank hafter n
  | cons w ws ih =>
    cases n with
    | zero => cases h
    | succ n =>
      rw [List.flatMap_cons, Assignment.text, List.append_assoc, List.append_assoc,
        readAttributes_succ (List.all_eq_true.mp w.isBefore) w.head?_body (w.body_ne_nil _),
        w.readAttribute_body, Option.bind_some, ih (Nat.le_of_succ_le_succ h)]
      rfl

/-- **What is read** is a row of assignments. -/
theorem exists_assignments {n : Nat} {s : List Char} {pairs : List (List Char × List Char)}
    (h : readAttributes n s = some pairs) : ∃ (ws : List Assignment) (after : List Char),
      s = ws.flatMap Assignment.text ++ after ∧ after.all isSpace = true ∧
        pairs = ws.map Assignment.pair := by
  induction n generalizing s pairs with
  | zero =>
    obtain ⟨before, s, rfl, hbefore, hfirst⟩ := Text.exists_run isSpace s
    cases s with
    | nil => exact exists_of_blank (by simpa using hbefore) h
    | cons c s =>
      rw [readAttributes_zero hbefore hfirst nofun] at h
      cases h
  | succ n ih =>
    obtain ⟨before, s, rfl, hbefore, hfirst⟩ := Text.exists_run isSpace s
    cases s with
    | nil => exact exists_of_blank (by simpa using hbefore) h
    | cons c s =>
      rw [readAttributes_succ hbefore hfirst nofun] at h
      -- One assignment is split off, and what it leaves is a shorter row.
      obtain ⟨⟨pair, rest⟩, hread, h⟩ := Option.bind_eq_some_iff.mp h
      obtain ⟨pairs, hpairs, rfl⟩ := Option.map_eq_some_iff.mp h
      obtain ⟨w, hw, rfl⟩ := exists_assignment (List.all_eq_true.mpr hbefore) hfirst hread
      obtain ⟨ws, after, hrest, hafter, rfl⟩ := ih hpairs
      have hrow : before ++ c :: s = (w :: ws).flatMap Assignment.text ++ after := by
        rw [hw, List.flatMap_cons, List.append_assoc, ← hrest]
      exact ⟨w :: ws, after, hrow, hafter, rfl⟩

/-! ## Tags -/

/-- What stands between the brackets of a tag for a reader that does not validate: a name, which goes
up to the first blank, and a row of assignments. -/
structure LooseTag where
  name : List Char
  unspaced : ∀ c ∈ name, isSpace c = false
  assignments : List Assignment
  after : List Char
  isAfter : after.all isSpace = true
  apart : ∀ c ∈ (assignments.flatMap Assignment.text ++ after).head?, isSpace c = true
  distinct : (assignments.map Assignment.name).Nodup

theorem namesDistinct_iff {l : List (List Char × List Char)} :
    namesDistinct l = true ↔ (l.map Prod.fst).Nodup := by
  induction l with
  | nil => simp [namesDistinct]
  | cons a l ih =>
    rw [namesDistinct, Bool.and_eq_true, ih, List.map_cons, List.nodup_cons, List.all_eq_true,
      List.mem_map]
    refine and_congr_left fun _ => ⟨?_, fun h b hb => decide_eq_true fun heq => h ⟨b, hb, heq⟩⟩
    rintro h ⟨b, hb, heq⟩
    exact of_decide_eq_true (h b hb) heq

namespace LooseTag

variable (tag : LooseTag)

def text : List Char := tag.name ++ (tag.assignments.flatMap Assignment.text ++ tag.after)

/-- An assignment gives an attribute once its value is resolved. -/
def Gives (w : Assignment) (a : List Char × List Char) : Prop :=
  w.name = a.1 ∧ unescape w.value = some a.2

theorem stops_name : ∀ c ∈ (tag.assignments.flatMap Assignment.text ++ tag.after).head?,
    (!isSpace c) = false := by
  intro c hc
  rw [tag.apart c hc, Bool.not_true]

theorem runs_name : ∀ c ∈ tag.name, (!isSpace c) = true := by
  intro c hc
  rw [tag.unspaced c hc, Bool.not_false]

theorem tagName_text : tagName tag.text = tag.name :=
  Text.takeWhile_append_of_stop tag.runs_name tag.stops_name

theorem dropWhile_text : tag.text.dropWhile (fun c => !isSpace c) =
    tag.assignments.flatMap Assignment.text ++ tag.after :=
  Text.dropWhile_append_of_stop tag.runs_name tag.stops_name

theorem length_le_length_flatMap (ws : List Assignment) :
    ws.length ≤ (ws.flatMap Assignment.text).length := by
  induction ws with
  | nil => exact Nat.zero_le _
  | cons w ws ih =>
    have hpos := List.length_pos_iff.mpr (w.body_ne_nil [])
    rw [List.append_nil] at hpos
    rw [List.flatMap_cons, Assignment.text, List.length_append, List.length_append, List.length_cons]
    omega

/-- **A tag is read** as its name and its attributes. -/
theorem read?_text {attributes : List (List Char × List Char)}
    (h : List.Forall₂ Gives tag.assignments attributes) :
    Tag.read? tag.text = some ⟨tag.name, attributes⟩ := by
  have hlength : tag.assignments.length ≤
      (tag.assignments.flatMap Assignment.text ++ tag.after).length := by
    rw [List.length_append]
    exact Nat.le_add_right_of_le (length_le_length_flatMap tag.assignments)
  have hdistinct : namesDistinct (tag.assignments.map Assignment.pair) = true := by
    rw [namesDistinct_iff, List.map_map]
    exact tag.distinct
  have hvalues : (tag.assignments.map Assignment.pair).mapM
      (fun x => (unescape x.2).map fun v => (x.1, v)) = some attributes := by
    rw [Result.mapM_some_iff, List.forall₂_map_left_iff]
    refine h.imp fun w a hgives => ?_
    simp only [Assignment.pair, hgives.2, hgives.1, Option.map_some]
  simp only [Tag.read?, tag.tagName_text, tag.dropWhile_text,
    readAttributes_flatMap tag.isAfter hlength, Option.bind_eq_bind, Option.bind_some, hdistinct,
    if_true, hvalues]
  rfl

/-- **What is read** is a tag. -/
theorem exists_of_read? {content : List Char} {found : Tag} (h : Tag.read? content = some found) :
    ∃ tag : LooseTag, tag.text = content ∧ tag.name = found.name ∧
      List.Forall₂ Gives tag.assignments found.attributes := by
  obtain ⟨name, rest, rfl, hname, hrest⟩ := Text.exists_run (fun c => !isSpace c) content
  rw [Tag.read?, tagName, Text.takeWhile_append_of_stop hname hrest,
    Text.dropWhile_append_of_stop hname hrest] at h
  obtain ⟨pairs, hpairs, h⟩ := Option.bind_eq_some_iff.mp h
  obtain ⟨ws, after, rfl, hafter, rfl⟩ := exists_assignments hpairs
  simp only at h
  split at h
  case isFalse => cases h
  case isTrue hdistinct =>
  obtain ⟨attributes, hvalues, heq⟩ := Option.bind_eq_some_iff.mp h
  cases heq
  rw [namesDistinct_iff, List.map_map] at hdistinct
  rw [Result.mapM_some_iff, List.forall₂_map_left_iff] at hvalues
  refine ⟨⟨name, fun c hc => by simpa using hname c hc, ws, after, hafter,
    fun c hc => by simpa using hrest c hc, hdistinct⟩, rfl, rfl, hvalues.imp fun w a hgives => ?_⟩
  obtain ⟨value, hvalue, rfl⟩ := Option.map_eq_some_iff.mp hgives
  exact ⟨rfl, hvalue⟩

end LooseTag

end CachedRun.Xml
