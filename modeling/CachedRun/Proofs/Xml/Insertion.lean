import CachedRun.Proofs.Xml.Locality
import CachedRun.Proofs.Xml.Number
import CachedRun.Proofs.Xml.Reading

/-!
# Insertion — a comment between two tokens

A comment or an instruction says nothing, so it should not matter to a canonical form whether one is
there. Between two pieces of markup it does not. In a run of character data it cuts a text in two,
and each part is trimmed and its number normalized before they are written side by side.

A `Place` is where something may be written without it becoming part of markup or of a reference,
and every cut through a document that is accepted is one, but for those (`exists_place`). The lexer
reads the tokens before a place and behind it as it did (`Place.tokens_insert`), so what becomes of
the canonical form is a matter of the two texts that meet there: **it stays the same exactly if they
are seamless** (`canonical_insert`). Digits on both sides are not, nor is a word with a blank before
the next one.
-/

set_option autoImplicit false

namespace CachedRun.Xml

variable {numbers : Bool}

/-! ## What is read before a place -/

theorem admits_of_textItem {p : Progress} {s : List Char} {is : List Item}
    (h : textItem numbers p s = .ok is) : Admits p s := by
  intro hroot
  unfold textItem at h
  split at h
  · rename_i htrim
    exact Text.trim_eq_nil_iff.mp htrim
  · rw [if_pos hroot] at h
    cases h

/-- Character data that is accepted can be resolved. -/
theorem exists_chars {p : Progress} {raw : List Char} {us : List Token} {is : List Item}
    (h : itemsFrom numbers p (textTokens raw ++ us) = .ok is) :
    ∃ s, unescape raw = some s ∧ Admits p s := by
  suffices hinner : ∃ inner, unescape (trimSpace raw) = some inner ∧ Admits p inner by
    obtain ⟨inner, hinner, hadmits⟩ := hinner
    obtain ⟨s, hs, htrim⟩ := exists_unescape_of_trimSpace hinner
    refine ⟨s, hs, fun hroot => ?_⟩
    rw [← Text.trim_eq_nil_iff, ← htrim, Text.trim_eq_nil_iff]
    exact hadmits hroot
  rw [textTokens] at h
  split at h
  · rename_i hempty
    exact ⟨[], by rw [hempty]; rfl, fun _ => rfl⟩
  · rw [List.singleton_append, itemsFrom] at h
    obtain ⟨⟨first, p'⟩, hstep, -⟩ := Result.bind_eq_ok_iff.mp h
    rw [step] at hstep
    split at hstep
    · cases hstep
    · rename_i inner hinner
      obtain ⟨items, hitems, -⟩ := Result.map_eq_ok_iff.mp hstep
      exact ⟨inner, hinner, admits_of_textItem hitems⟩

/-! ## Seams -/

/-- Where two texts may be written side by side: one of them is blank, or no blanks meet and the
numbers that they are, if numbers are normalized, are those of their whole. -/
def Seamless (numbers : Bool) (l r : List Char) : Prop :=
  l.all Text.isBlank = true ∨ r.all Text.isBlank = true ∨
    (∀ c ∈ l.getLast?, Text.isBlank c = false) ∧ (∀ c ∈ r.head?, Text.isBlank c = false) ∧
      normalized numbers (Text.trim l ++ Text.trim r) =
        normalized numbers (Text.trim l) ++ normalized numbers (Text.trim r)

/-- What is written of a text. -/
theorem render_textItems (s : List Char) :
    render (textItems numbers s) = escape (normalized numbers (Text.trim s)) := by
  unfold textItems
  split
  · rename_i htrim
    rw [htrim, normalized_nil]
    rfl
  · rw [render, List.flatMap_singleton]
    rfl

theorem seamless_iff {l r : List Char} : Seamless numbers l r ↔
    normalized numbers (Text.trim (l ++ r)) =
      normalized numbers (Text.trim l) ++ normalized numbers (Text.trim r) := by
  by_cases hl : l.all Text.isBlank = true
  · simp [Seamless, hl, Text.trim_append_left hl, Text.trim_eq_nil hl, normalized_nil]
  by_cases hr : r.all Text.isBlank = true
  · simp [Seamless, hr, Text.trim_append_right hr, Text.trim_eq_nil hr, normalized_nil]
  obtain ⟨seam, hjoined, hblanks, hnil⟩ := Text.exists_seam
    (fun h => hl (Text.trim_eq_nil_iff.mp h)) (fun h => hr (Text.trim_eq_nil_iff.mp h))
  rw [Seamless, or_iff_right hl, or_iff_right hr, ← and_assoc, ← hnil, hjoined]
  by_cases hseam : seam = []
  · rw [hseam]
    exact and_iff_right rfl
  · -- The blanks of a seam are kept in the whole and lost between its parts.
    obtain ⟨c, hc⟩ := List.exists_mem_of_ne_nil _ hseam
    have hblank := List.all_eq_true.mp hblanks c hc
    have hcount : 0 < seam.countP Text.isBlank := List.countP_pos_iff.mpr ⟨c, hc, hblank⟩
    have hmem : c ∈ Text.trim l ++ (seam ++ Text.trim r) :=
      List.mem_append_right _ (List.mem_append_left _ hc)
    refine iff_of_false (fun h => hseam h.1) fun heq => ?_
    rw [normalized_of_isBlank (.inl hmem) hblank] at heq
    have hsum := congrArg (List.countP Text.isBlank) heq
    have hl : (normalized numbers (Text.trim l)).countP Text.isBlank ≤ _ := countP_normalized_le
    have hr : (normalized numbers (Text.trim r)).countP Text.isBlank ≤ _ := countP_normalized_le
    simp only [List.countP_append] at hsum
    omega

/-! ## Places -/

/-- A place in a document that is not inside of markup and not inside of a reference: at or in a run
of character data, which is on both sides of it up to the next markup. -/
structure Place where
  /-- Whether there is a byte order mark. -/
  mark : Bool
  before : List Char
  left : List Char
  right : List Char
  after : List Char
  /-- The tokens before the run. -/
  tokens : List Token
  reads : Reads (before ++ (left ++ (right ++ after))) tokens (left ++ (right ++ after))
  isData : '<' ∉ left ++ right
  opens : Opens after
  whole : Whole left
  unmarked : (before ++ (left ++ (right ++ after))).head? ≠ some '\uFEFF'

/-- The document with something written at a place. -/
def Place.textWith (p : Place) (inserted : List Char) : String :=
  String.ofList ((if p.mark then ['\uFEFF'] else []) ++
    (p.before ++ (p.left ++ (inserted ++ (p.right ++ p.after)))))

def Place.text (p : Place) : String := p.textWith []

namespace Place

variable (p : Place) {us : List Token}

theorem tokens_textWith {inserted : List Char} {ts : List Token}
    (hunmarked : (p.before ++ (p.left ++ (inserted ++ (p.right ++ p.after)))).head? ≠ some '\uFEFF')
    (h : Lexes (p.before ++ (p.left ++ (inserted ++ (p.right ++ p.after)))) ts) :
    Xml.tokens (p.textWith inserted).toList = ts := by
  rw [textWith, String.toList_ofList]
  cases p.mark with
  | true => exact h.tokens_of_mark
  | false => exact h.tokens hunmarked

theorem tokens_text (h : Lexes p.after us) :
    Xml.tokens p.text.toList = p.tokens ++ (textTokens (p.left ++ p.right) ++ us) := by
  refine p.tokens_textWith p.unmarked ?_
  refine p.reads.lexes ?_
  rw [← List.append_assoc]
  exact h.text p.isData p.opens

theorem tokens_insert (a : Aside) (h : Lexes p.after us) : Xml.tokens (p.textWith a.text).toList =
    p.tokens ++ ((textTokens p.left ++ .aside :: textTokens p.right) ++ us) := by
  have hdata := p.isData
  rw [List.mem_append, not_or] at hdata
  have hopens {rest : List Char} : Opens (a.text ++ rest) := (Section.aside a).opens
  -- A comment opens markup, as what came next did, so the tokens in front are read as before.
  have hplace : Opens (p.left ++ (p.right ++ p.after)) →
      Opens (p.left ++ (a.text ++ (p.right ++ p.after))) := by
    cases p.left with
    | nil => exact fun _ => hopens
    | cons d left => exact id
  -- Nor is there a mark in front now: the comment does not begin with one.
  have hhead : (p.before ++ (p.left ++ (a.text ++ (p.right ++ p.after)))).head? ≠ some '\uFEFF' := by
    have hunmarked := p.unmarked
    cases hbefore : p.before with
    | cons d before =>
      rw [hbefore] at hunmarked
      exact hunmarked
    | nil =>
      rw [hbefore] at hunmarked
      cases hleft : p.left with
      | cons d left =>
        rw [hleft] at hunmarked
        exact hunmarked
      | nil => exact fun hmark => absurd (hopens _ hmark) (by decide)
  refine p.tokens_textWith hhead ((p.reads.replace hplace).lexes ?_)
  rw [List.append_assoc, List.cons_append]
  exact Lexes.text hdata.1 hopens ((Section.aside a).lexes (h.text hdata.2 p.opens))

end Place

theorem not_broken {p : Progress} {ts : List Token} {is : List Item}
    (h : itemsFrom numbers p ts = .ok is) : .broken ∉ ts := by
  intro hmem
  obtain ⟨ts, us, rfl⟩ := List.append_of_mem hmem
  obtain ⟨_, _, p', -, -, hrest⟩ := Yields.exists_of_itemsFrom h
  cases hrest

/-- A cut inside a reference. -/
def InReference (x : List Char) : Prop :=
  ∃ before name, x = before ++ '&' :: name ∧ ';' ∉ name ∧ '<' ∉ name

/-- **Every cut** through a document that is not inside of markup or a reference is at a place. -/
theorem exists_place {mark : Bool} {x y : List Char} {c : String}
    (h : canonical numbers (String.ofList ((if mark then ['\uFEFF'] else []) ++ (x ++ y))) = .ok c)
    (hunmarked : (x ++ y).head? ≠ some '\uFEFF') (hmarkup : ¬ InMarkup x y)
    (hreference : ¬ InReference x) :
    ∃ p : Place, p.mark = mark ∧ p.before ++ p.left = x ∧ p.right ++ p.after = y := by
  -- A mark in front is not read, so both kinds of document have the tokens of the same text.
  obtain ⟨ts, hts⟩ := exists_lexes (x ++ y)
  have htokens : tokens ((if mark then ['\uFEFF'] else []) ++ (x ++ y)) = ts := by
    cases mark with
    | true => exact hts.tokens_of_mark
    | false => exact hts.tokens hunmarked
  obtain ⟨chars, hchars, -⟩ := Result.map_eq_ok_iff.mp h
  obtain ⟨is, his, -⟩ := Result.map_eq_ok_iff.mp hchars
  rw [String.toList_ofList, items, htokens] at his
  obtain ⟨before, left, right, after, us, rfl, rfl, hreads, hdata, hopens⟩ :=
    (inData_or_inMarkup hts (not_broken his)).resolve_right hmarkup
  -- A reference that the text on the left leaves open would be cut.
  have hwhole : Whole left := by
    rintro b name rfl
    by_contra hname
    refine hreference ⟨before ++ b, name, (List.append_assoc ..).symm, hname, fun hmem => hdata ?_⟩
    simp [hmem]
  rw [List.append_assoc] at hreads hunmarked
  exact ⟨⟨mark, before, left, right, after, us, hreads, hdata, hopens, hwhole, hunmarked⟩, rfl, rfl,
    rfl⟩

/-- The two parts of a run are read one after the other. -/
theorem yields_parts {p : Progress} {left right l r : List Char} (hl : unescape left = some l)
    (hr : unescape right = some r) (h : Admits p (l ++ r)) :
    Yields numbers p (textTokens left ++ .aside :: textTokens right)
      (textItems numbers l ++ textItems numbers r) p := by
  have hparts : p.opened = [] → l.all Text.isBlank = true ∧ r.all Text.isBlank = true := by
    intro hroot
    rw [← Bool.and_eq_true, ← List.all_append]
    exact h hroot
  have haside : step numbers p .aside = .ok ([], p) := rfl
  exact (yields_text hl fun hroot => (hparts hroot).1).append
    (.cons haside (yields_text hr fun hroot => (hparts hroot).2))

/-- **A comment may be written at a place without a change of the canonical form exactly if the
texts on its two sides are seamless.** A comment ends a text. So where one text was trimmed and
normalized, two are, each by itself, and what comes of them is written side by side. -/
theorem canonical_insert (p : Place) (a : Aside) {c : String}
    (h : canonical numbers p.text = .ok c) : ∃ l r d, unescape p.left = some l ∧
      unescape p.right = some r ∧ canonical numbers (p.textWith a.text) = .ok d ∧
      (d = c ↔ Seamless numbers l r) := by
  obtain ⟨us, hus⟩ := exists_lexes p.after
  obtain ⟨chars, hchars, rfl⟩ := Result.map_eq_ok_iff.mp h
  obtain ⟨is, his, rfl⟩ := Result.map_eq_ok_iff.mp hchars
  -- The items are those of the tokens in front, of the text of the place and of the tokens behind.
  rw [items, p.tokens_text hus] at his
  obtain ⟨is₁, is₂, p', rfl, hbefore, hrest⟩ := Yields.exists_of_itemsFrom his
  obtain ⟨s, hs, hadmits⟩ := exists_chars hrest
  obtain ⟨l, r, hl, hr, rfl⟩ := exists_unescape_append p.whole hs
  rw [yields_text hs hadmits] at hrest
  obtain ⟨is₃, hafter, rfl⟩ := Result.map_eq_ok_iff.mp hrest
  have hitems : items numbers (p.textWith a.text).toList =
      .ok (is₁ ++ ((textItems numbers l ++ textItems numbers r) ++ is₃)) := by
    rw [items, p.tokens_insert a hus, hbefore, yields_parts hl hr hadmits, hafter]
    rfl
  refine ⟨l, r, _, hl, hr, by rw [canonical, canonicalChars, hitems]; rfl, ?_⟩
  -- What is written in front and behind is the same in both, so the texts in between decide.
  rw [seamless_iff, String.ofList_inj, render_append, render_append, render_append, render_append,
    render_append, render_textItems, render_textItems, render_textItems, List.append_cancel_left_eq,
    List.append_cancel_right_eq, ← escape_append]
  exact ⟨fun heq => (escape_inj heq).symm, fun heq => by rw [heq]⟩

/-! ### Inside of a number -/

/-- Between the digits of `<a>8.50</a>`. -/
def decimals : Place where
  mark := false
  before := "<a>".toList
  left := "8.5".toList
  right := "0".toList
  after := "</a>".toList
  tokens := [.opening ['a']]
  reads := .markup (by decide +kernel) .here
  isData := by decide +kernel
  opens := .cons
  whole := whole_of_not_mem (by decide +kernel)
  unmarked := by decide +kernel

def note : Aside := .comment " ".toList (by decide +kernel)

theorem canonical_insert_decimals : canonical true decimals.text = .ok "<a>8.5</a>" ∧
    ∃ l r d, unescape decimals.left = some l ∧ unescape decimals.right = some r ∧
      canonical true (decimals.textWith note.text) = .ok d ∧
      (d = "<a>8.5</a>" ↔ Seamless true l r) := by
  have h : canonical true decimals.text = .ok "<a>8.5</a>" :=
    Result.toOption_eq_some_iff.mp (by decide +kernel)
  exact ⟨h, canonical_insert decimals note h⟩

/-- The digits on the two sides of a comment are normalized on their own. -/
theorem comment_changes_number : ¬ ∀ (p : Place) (a : Aside) (c : String),
    canonical true p.text = .ok c → canonical true (p.textWith a.text) = .ok c := by
  intro h
  have hnumber : (canonical true decimals.text).toOption = some "<a>8.5</a>" := by decide +kernel
  have hpieces : (canonical true (decimals.textWith note.text)).toOption = some "<a>8.50</a>" := by
    decide +kernel
  have hsame := h decimals note _ (Result.toOption_eq_some_iff.mp hnumber)
  rw [hsame] at hpieces
  exact absurd (Option.some.inj hpieces) (by decide)

end CachedRun.Xml
