import CachedRun.Proofs.Xml.Canonical
import CachedRun.Proofs.Xml.Locality
import CachedRun.Proofs.Xml.Number

/-!
# Written tags — what becomes of a tag that is written and read again

A tag is written with one blank before each attribute and double quotes around each value, and for
names of the grammar nothing can go wrong there. But the reader does not validate: a name may hold
quotes, a `>` between them, or end in a slash. Once attributes are sorted, a quote that was closed in
another name may be open at the end, and once the slash of an empty element is gone the one of its
name takes its place.

`IsRead` is what is left to rely on of a tag that has been read: the reader goes over its name, and
its attributes are as they are written. What is between the brackets is read as it was, then
(`read?_writtenTag`), and the question is only whether the lexer finds the brackets. **A tag comes out
of reading as it was exactly if it does** (`TagReadsBack`): that it is enough is
`IsRead.readMarkup_writtenTag`, and that nothing else gives the same text is `IsRead.tagReadsBack`.
-/

set_option autoImplicit false

namespace CachedRun.Xml

variable {numbers : Bool} {name : List Char} {attributes : Attributes}

/-! ## Attributes as they are written

A value is written between double quotes and holds none, since it was escaped. A name is written as
it is. -/

theorem isSpace_blank : [' '].all isSpace = true := rfl

theorem isQuote_double : '"' = '"' ∨ '"' = '\'' := .inl rfl

/-- An attribute as it is written. -/
def writtenAssignment (a : List Char × List Char) (h : IsLoose a.1) : Assignment where
  before := [' ']
  isBefore := isSpace_blank
  name := a.1
  isLoose := h
  left := []
  isLeft := List.all_nil
  right := []
  isRight := List.all_nil
  quote := '"'
  isQuote := isQuote_double
  value := escape a.2
  unquoted := not_mem_escape.2

theorem text_writtenAssignment (a : List Char × List Char) (h : IsLoose a.1) :
    (writtenAssignment a h).text = renderAttribute a := rfl

theorem exists_written (h : ∀ a ∈ attributes, IsLoose a.1) : ∃ ws : List Assignment,
    ws.flatMap Assignment.text = attributes.flatMap renderAttribute ∧
      List.Forall₂ LooseTag.Gives ws attributes := by
  induction attributes with
  | nil => exact ⟨[], rfl, .nil⟩
  | cons a attributes ih =>
    rw [List.forall_mem_cons] at h
    obtain ⟨ws, hws, hgives⟩ := ih h.2
    refine ⟨writtenAssignment a h.1 :: ws, ?_, .cons ⟨rfl, unescape_escape a.2⟩ hgives⟩
    rw [List.flatMap_cons, List.flatMap_cons, hws, text_writtenAssignment]

theorem map_name_of_gives {ws : List Assignment} (h : List.Forall₂ LooseTag.Gives ws attributes) :
    ws.map Assignment.name = attributes.map Prod.fst := by
  induction h with
  | nil => rfl
  | cons hgives _ ih => rw [List.map_cons, List.map_cons, ih, hgives.1]

/-- **A written tag is read** as it is. -/
theorem read?_writtenTag (hname : ∀ c ∈ name, isSpace c = false)
    (hnames : ∀ a ∈ attributes, IsLoose a.1) (hdistinct : (attributes.map Prod.fst).Nodup) :
    Tag.read? (writtenTag name attributes) = some ⟨name, attributes⟩ := by
  obtain ⟨ws, hws, hgives⟩ := exists_written hnames
  have hapart : ∀ c ∈ (ws.flatMap Assignment.text ++ []).head?, isSpace c = true := by
    rw [hws, List.append_nil]
    cases attributes with
    | nil => nofun
    | cons a attributes =>
      rintro _ ⟨⟩
      rfl
  have hread := LooseTag.read?_text ⟨name, hname, ws, [], rfl, hapart,
    (map_name_of_gives hgives).symm ▸ hdistinct⟩ hgives
  rw [LooseTag.text, List.append_nil, hws] at hread
  exact hread

/-- Written attributes up to the end of their tag. -/
theorem flatMap_renderAttribute_inj {l m : Attributes} (hl : ∀ a ∈ l, IsLoose a.1)
    (hm : ∀ a ∈ m, IsLoose a.1) {s t : List Char}
    (h : l.flatMap renderAttribute ++ '>' :: s = m.flatMap renderAttribute ++ '>' :: t) : l = m := by
  induction l generalizing m with
  | nil =>
    cases m with
    | nil => rfl
    | cons b m => cases h
  | cons a l ih =>
    cases m with
    | nil => cases h
    | cons b m =>
      rw [List.forall_mem_cons] at hl hm
      rw [List.flatMap_cons, List.flatMap_cons, List.append_assoc, List.append_assoc] at h
      obtain ⟨rfl, hrest⟩ := prefixFree_renderAttribute hl.1 hm.1 h
      rw [ih hl.2 hm.2 hrest]

/-- As many assignments as were written, read off what was written, are all of it. -/
theorem row_eq_written {ws : List Assignment} {after rest rest' : List Char}
    (hafter : after.all isSpace = true) (hnames : ∀ a ∈ attributes, IsLoose a.1)
    (hlength : ws.length = attributes.length)
    (h : (ws.flatMap Assignment.text ++ after) ++ rest =
      attributes.flatMap renderAttribute ++ '>' :: rest') :
    ws.flatMap Assignment.text ++ after = attributes.flatMap renderAttribute := by
  induction attributes generalizing ws with
  | nil =>
    rw [List.eq_nil_of_length_eq_zero hlength] at h ⊢
    cases after with
    | nil => rfl
    | cons c after =>
      cases h
      cases hafter
  | cons a attributes ih =>
    -- An assignment is known by its text, so the first ones agree, and then the others.
    cases ws with
    | nil => cases hlength
    | cons w ws =>
      rw [List.forall_mem_cons] at hnames
      rw [List.flatMap_cons, List.flatMap_cons, ← text_writtenAssignment a hnames.1] at h ⊢
      simp only [List.append_assoc] at h
      obtain ⟨htext, hrest⟩ := Assignment.append_inj h
      rw [← List.append_assoc] at hrest
      rw [List.append_assoc, htext, ih hnames.2 (Nat.succ_inj.mp hlength) hrest]

/-! ## Tags as they are found

The lexer looks for the end of a tag and knows of quotes only. So a tag that was found is a text
that leaves no quote open, whatever else it holds. -/

/-- The content of a tag as the lexer finds it: up to the `>` that ends it, or up to the slash before
that. -/
structure IsFound (content : List Char) : Prop where
  head : ∀ c ∈ content.head?, c ≠ '!' ∧ c ≠ '?' ∧ c ≠ '/'
  ends : ∃ slash, (slash = [] ∨ slash = ['/']) ∧
    readTag none (content ++ (slash ++ ['>'])) = some (content ++ slash, [])

def Token.IsFound : Token → Prop
  | .opening content | .empty content => Xml.IsFound content
  | _ => True

theorem append_of_readTag {quote : Option Char} {s inside after : List Char}
    (h : readTag quote s = some (inside, after)) : s = inside ++ '>' :: after := by
  induction s generalizing quote inside with
  | nil => rw [readTag_nil] at h; cases h
  | cons c s ih =>
    rw [readTag_cons] at h
    split at h
    · rename_i hend
      cases h
      rw [hend.2, List.nil_append]
    · obtain ⟨⟨inside, after'⟩, hread, heq⟩ := Option.map_eq_some_iff.mp h
      cases heq
      rw [ih hread, List.cons_append]

/-- The `>` that ends a tag does so whatever follows. -/
theorem readTag_of_readTag {inside after : List Char} (rest : List Char)
    (h : readTag none (inside ++ '>' :: after) = some (inside, after)) :
    readTag none (inside ++ '>' :: rest) = some (inside, rest) := by
  obtain ⟨taken, htaken, hlocal⟩ := local_readTag none h
  rw [List.append_cons] at htaken ⊢
  rw [List.append_cancel_right htaken]
  exact hlocal rest

theorem isFound_of_readDeclaration {s after : List Char} {token : Token}
    (h : readDeclaration s = some (token, after)) : token.IsFound := by
  unfold readDeclaration at h
  split at h
  · obtain ⟨_, -, heq⟩ := Option.map_eq_some_iff.mp h
    cases heq
    trivial
  · obtain ⟨_, -, h⟩ := Option.bind_eq_some_iff.mp h
    obtain ⟨_, -, heq⟩ := Option.bind_eq_some_iff.mp h
    cases heq
    trivial
  · split at h
    · obtain ⟨_, -, h⟩ := Option.bind_eq_some_iff.mp h
      simp only at h
      split at h
      · cases h
        trivial
      · cases h
    · cases h
  · cases h

theorem isFound_tagToken {s inside after : List Char}
    (hhead : ∀ c ∈ s.head?, c ≠ '!' ∧ c ≠ '?' ∧ c ≠ '/')
    (h : readTag none s = some (inside, after)) : (tagToken inside).IsFound := by
  have hs := append_of_readTag h
  rw [hs] at h
  have hread := readTag_of_readTag [] h
  unfold tagToken
  split
  · rename_i content hdrop
    rw [Text.eq_append_of_dropEnding? hdrop] at hs hread
    refine ⟨?_, ['/'], .inr rfl, by rw [← List.append_assoc]; exact hread⟩
    cases content with
    | nil => nofun
    | cons c content => rwa [hs] at hhead
  · refine ⟨?_, [], .inl rfl, by rw [List.append_nil]; exact hread⟩
    cases inside with
    | nil => nofun
    | cons c inside => rwa [hs] at hhead

theorem isFound_of_readMarkup {s after : List Char} {token : Token}
    (h : readMarkup s = some (token, after)) : token.IsFound := by
  rcases markup_cases s with ⟨s, rfl⟩ | ⟨s, rfl⟩ | ⟨s, rfl⟩ | hhead
  · exact isFound_of_readDeclaration h
  · rw [readMarkup_question] at h
    split at h
    · cases h
    · obtain ⟨_, -, heq⟩ := Option.map_eq_some_iff.mp h
      cases heq
      trivial
  · obtain ⟨_, -, heq⟩ := Option.map_eq_some_iff.mp h
    cases heq
    trivial
  · rw [readMarkup_tag hhead] at h
    obtain ⟨⟨inside, after'⟩, hread, heq⟩ := Option.map_eq_some_iff.mp h
    cases heq
    exact isFound_tagToken hhead hread

/-- **The lexer finds every tag** of a text between its brackets. -/
theorem isFound_of_mem_tokensWithin {n : Nat} {s : List Char} :
    ∀ token ∈ tokensWithin n s, token.IsFound := by
  fun_induction tokensWithin n s with
  | case1 => nofun
  | case2 => exact List.forall_mem_singleton.mpr trivial
  | case3 _ _ _ _ hread ih => exact List.forall_mem_cons.mpr ⟨isFound_of_readMarkup hread, ih⟩
  | case4 => exact List.forall_mem_singleton.mpr trivial
  | case5 _ _ _ _ _ _ _ ih => exact ih
  | case6 _ _ _ _ _ _ _ ih => exact List.forall_mem_cons.mpr ⟨trivial, ih⟩

/-! ## Names as they are found -/

/-- The reader of a tag goes over a text from one open quote, or none, to another. -/
def Crosses (quote : Option Char) (s : List Char) (quote' : Option Char) : Prop :=
  ∀ rest, readTag quote (s ++ rest) = (readTag quote' rest).map fun (inside, after) =>
    (s ++ inside, after)

def IsQuote (quote : Option Char) : Prop := ∀ q ∈ quote, q = '"' ∨ q = '\''

theorem isQuote_none : IsQuote none := by rintro _ ⟨⟩

theorem isQuote_quoteBehind {quote : Option Char} (h : IsQuote quote) (c : Char) :
    IsQuote (quoteBehind c quote) := by
  cases quote with
  | none =>
    rw [quoteBehind]
    split
    · rename_i hc
      rintro _ ⟨⟩
      exact hc
    · nofun
  | some q =>
    rw [quoteBehind]
    split
    · nofun
    · exact h

/-- The beginning of what is read is gone over. -/
theorem exists_crosses {quote : Option Char} (hquote : IsQuote quote) {s t inside after : List Char}
    (h : readTag quote (s ++ t) = some (s ++ inside, after)) :
    ∃ quote', IsQuote quote' ∧ Crosses quote s quote' := by
  induction s generalizing quote with
  | nil =>
    refine ⟨quote, hquote, fun rest => ?_⟩
    cases h : readTag quote rest <;> simp [h]
  | cons c s ih =>
    rw [List.cons_append, readTag_cons] at h
    split at h
    case isTrue => cases h
    case isFalse hend =>
    obtain ⟨⟨inside', after'⟩, hread, heq⟩ := Option.map_eq_some_iff.mp h
    cases heq
    obtain ⟨quote', hquote', hcrosses⟩ := ih (isQuote_quoteBehind hquote c) hread
    refine ⟨quote', hquote', fun rest => ?_⟩
    rw [List.cons_append, readTag_cons, if_neg hend, hcrosses, Option.map_map]
    rfl

/-- An open quote hides the end of a tag. -/
theorem readTag_unclosed {quote : Char} {s : List Char} (h : quote ∉ s) :
    readTag (some quote) s = none := by
  induction s with
  | nil => exact readTag_nil _
  | cons c s ih =>
    rw [List.mem_cons, not_or] at h
    rw [readTag_cons, if_neg nofun, quoteBehind, if_neg (Ne.symm h.1), ih h.2]
    rfl

/-- The name of a tag without attributes leaves no quote open. -/
theorem LooseTag.exists_crosses (tag : LooseTag) (h : IsFound tag.text) :
    ∃ quote, Crosses none tag.name quote ∧ (tag.assignments = [] → quote = none) := by
  obtain ⟨slash, hslash, hread⟩ := h.ends
  simp only [text, List.append_assoc] at hread
  obtain ⟨quote, hquote, hcrosses⟩ := Xml.exists_crosses isQuote_none hread
  refine ⟨quote, hcrosses, fun hnone => ?_⟩
  cases quote with
  | none => rfl
  | some q =>
    have hmem : q ∉ tag.after ++ (slash ++ ['>']) := by
      have hafter : q ∉ tag.after := by
        intro hmem
        have hspace := List.all_eq_true.mp tag.isAfter q hmem
        rcases hquote q rfl with rfl | rfl <;> cases hspace
      rcases hquote q rfl with rfl | rfl <;> rcases hslash with rfl | rfl <;> simp [hafter]
    rw [hcrosses, hnone, List.flatMap_nil, List.nil_append, readTag_unclosed hmem] at hread
    cases hread

/-- With a blank in it a tag goes on behind its name, and there first. -/
theorem LooseTag.isSpace_of_blank (tag : LooseTag) {slash : List Char}
    (hslash : slash = [] ∨ slash = ['/']) (hblank : ' ' ∈ tag.text ++ slash) :
    ∀ c ∈ (tag.assignments.flatMap Assignment.text ++ tag.after ++ slash).head?, isSpace c = true := by
  cases htail : tag.assignments.flatMap Assignment.text ++ tag.after with
  | cons d tail =>
    rintro _ ⟨⟩
    exact tag.apart d (by rw [htail]; rfl)
  | nil =>
    rw [text, htail, List.append_nil, List.mem_append] at hblank
    rcases hblank with hmem | hmem
    · cases tag.unspaced _ hmem
    · rcases hslash with rfl | rfl <;> simp at hmem

/-- What a written tag with attributes is read to begin with is its name. -/
theorem LooseTag.name_eq_of_append (tag : LooseTag) {slash inside : List Char}
    (hname : ∀ c ∈ name, isSpace c = false) (hslash : slash = [] ∨ slash = ['/'])
    (h : name ++ ' ' :: inside = tag.text ++ slash) : name = tag.name ∧
      ' ' :: inside = tag.assignments.flatMap Assignment.text ++ tag.after ++ slash := by
  have hblank : ' ' ∈ tag.text ++ slash := by
    rw [← h]
    simp
  rw [text, List.append_assoc] at h
  exact Text.append_inj_of_stop (p := fun c => !isSpace c) (fun c hc => by rw [hname c hc]; rfl)
    (by rintro _ ⟨⟩; rfl) tag.runs_name
    (fun c hc => by rw [tag.isSpace_of_blank hslash hblank c hc]; rfl) h

/-! ## Tags as they are read -/

/-- What is known of a tag that has been read, with its attributes as they are written. -/
structure IsRead (numbers : Bool) (name : List Char) (attributes : Attributes) : Prop where
  head : ∀ c ∈ name.head?, c ≠ '!' ∧ c ≠ '?' ∧ c ≠ '/'
  unspaced : ∀ c ∈ name, isSpace c = false
  crossed : ∃ quote, Crosses none name quote ∧ (attributes = [] → quote = none)
  names : ∀ a ∈ attributes, IsLoose a.1
  distinct : (attributes.map Prod.fst).Nodup
  sorted : sortAttributes attributes = attributes
  values : ∀ a ∈ attributes, normalized numbers a.2 = a.2

/-- The attributes of a tag as they are written. -/
def writtenAttributes (numbers : Bool) (attributes : Attributes) : Attributes :=
  sortAttributes (attributes.map fun (name, value) => (name, normalized numbers value))

theorem writtenAttributes_perm (h : (attributes.map Prod.fst).Nodup) :
    (writtenAttributes numbers attributes).Perm
      (attributes.map fun (name, value) => (name, normalized numbers value)) := by
  refine sortAttributes_perm ?_
  rw [List.map_map]
  exact h

theorem isLoose_writtenAttributes {tag : LooseTag}
    (hgives : List.Forall₂ LooseTag.Gives tag.assignments attributes) :
    ∀ a ∈ writtenAttributes numbers attributes, IsLoose a.1 := by
  intro a ha
  have hnames := map_name_of_gives hgives
  have hperm : (writtenAttributes numbers attributes).Perm _ :=
    writtenAttributes_perm (hnames ▸ tag.distinct)
  obtain ⟨b, hb, rfl⟩ := List.mem_map.mp (hperm.mem_iff.mp ha)
  have hname : b.1 ∈ tag.assignments.map Assignment.name := hnames ▸ List.mem_map_of_mem hb
  obtain ⟨w, -, hw⟩ := List.mem_map.mp hname
  exact hw ▸ w.isLoose

/-- **A tag that has been read** is known. -/
theorem LooseTag.isRead (tag : LooseTag) (hfound : IsFound tag.text)
    (hgives : List.Forall₂ Gives tag.assignments attributes) :
    IsRead numbers tag.name (writtenAttributes numbers attributes) := by
  have hnames := map_name_of_gives hgives
  have hdistinct : (attributes.map Prod.fst).Nodup := hnames ▸ tag.distinct
  have hperm : (writtenAttributes numbers attributes).Perm _ := writtenAttributes_perm hdistinct
  have hsame := hperm.map Prod.fst
  rw [List.map_map] at hsame
  obtain ⟨quote, hcrosses, hquote⟩ := tag.exists_crosses hfound
  -- Sorting keeps the names, so they are still distinct; values are in normal form already.
  refine ⟨?_, tag.unspaced, ⟨quote, hcrosses, fun hnil => hquote ?_⟩,
    isLoose_writtenAttributes hgives, ?_, ?_, ?_⟩
  · intro c hc
    refine hfound.head c ?_
    rw [text, List.head?_append, Option.mem_def.mp hc]
    rfl
  · rw [hnil, List.nil_perm, List.map_eq_nil_iff] at hperm
    exact List.forall₂_nil_right_iff.mp (hperm ▸ hgives)
  · exact hsame.nodup_iff.mpr hdistinct
  · exact sortAttributes_eq_of_perm (hsame.nodup_iff.mpr hdistinct) hperm
  · intro a ha
    obtain ⟨b, -, rfl⟩ := List.mem_map.mp (hperm.mem_iff.mp ha)
    exact normalized_normalized

theorem exists_of_openingItem {p : Progress} {content : List Char} {item : Item}
    (h : openingItem numbers p content = .ok item) : ∃ (tag : LooseTag) (attributes : Attributes),
      tag.text = content ∧ List.Forall₂ LooseTag.Gives tag.assignments attributes ∧
        item = .opening tag.name (writtenAttributes numbers attributes) ∧
          ¬ (p.opened = [] ∧ p.seenRoot = true) := by
  rw [openingItem] at h
  split at h
  case isTrue => cases h
  case isFalse hroot =>
  split at h
  · cases h
  · rename_i found hread
    cases h
    obtain ⟨tag, rfl, hname, hgives⟩ := LooseTag.exists_of_read? hread
    exact ⟨tag, found.attributes, rfl, hgives, by rw [hname]; rfl, hroot⟩

/-! ## Reading what is written

The lexer reads a written tag up to some `>`. That may be an earlier one than the one that was
written to end it, or a later one, and a slash in front of it makes the tag an empty element. None
of these gives the same text again. -/

/-- A written tag ends where it is read to end, and not like an empty element: no `>` before stands
outside of quotes, and no quote is left open. -/
def TagReadsBack (name : List Char) (attributes : Attributes) : Prop :=
  readTag none (writtenTag name attributes ++ ['>']) = some (writtenTag name attributes, []) ∧
    ¬ ['/'] <:+ writtenTag name attributes

namespace IsRead

variable (h : IsRead numbers name attributes)
include h

theorem head_writtenTag (rest : List Char) :
    ∀ c ∈ (writtenTag name attributes ++ '>' :: rest).head?, c ≠ '!' ∧ c ≠ '?' ∧ c ≠ '/' := by
  cases hname : name with
  | cons d name =>
    rintro _ ⟨⟩
    exact h.head d (by rw [hname]; rfl)
  | nil =>
    cases attributes with
    | nil =>
      rintro _ ⟨⟩
      decide
    | cons a attributes =>
      rintro _ ⟨⟩
      decide

theorem tagName_writtenTag : tagName (writtenTag name attributes) = name := by
  refine Text.takeWhile_append_of_stop (fun c hc => by rw [h.unspaced c hc]; rfl) ?_
  cases attributes with
  | nil => nofun
  | cons a attributes =>
    rintro _ ⟨⟩
    rfl

theorem openingItem_writtenTag {p : Progress} (hroot : ¬ (p.opened = [] ∧ p.seenRoot = true)) :
    openingItem numbers p (writtenTag name attributes) = .ok (.opening name attributes) := by
  have hvalues : attributes.map (fun a => (a.1, normalized numbers a.2)) = attributes := by
    refine (List.map_congr_left fun a ha => ?_).trans (List.map_id _)
    rw [h.values a ha]
    rfl
  rw [openingItem, if_neg hroot, read?_writtenTag h.unspaced h.names h.distinct]
  simp only [hvalues, h.sorted]

/-- **A tag that reads back** is the token that it was. -/
theorem readMarkup_writtenTag (hback : TagReadsBack name attributes) (rest : List Char) :
    readMarkup (writtenTag name attributes ++ '>' :: rest) =
      some (.opening (writtenTag name attributes), rest) := by
  rw [readMarkup_tag (h.head_writtenTag rest), readTag_of_readTag rest hback.1, Option.map_some]
  simp only [tagToken, Text.dropEnding?_eq_none hback.2]

/-- Without attributes a tag ends behind its name. -/
theorem slash_eq_nil_of_nil (hnil : attributes = []) {tag : LooseTag} {found : Attributes}
    {slash rest rest' after : List Char} (hslash : slash = [] ∨ slash = ['/'])
    (hread : readTag none (writtenTag name attributes ++ '>' :: rest) =
      some (tag.text ++ slash, after))
    (hwritten : writtenTag tag.name found ++ '>' :: rest' =
      writtenTag name attributes ++ '>' :: rest) :
    tag.text ++ slash = writtenTag name attributes ∧ slash = [] := by
  obtain ⟨quote, hcrosses, hquote⟩ := h.crossed
  have hname : writtenTag name attributes = name := by
    rw [hnil, writtenTag, List.flatMap_nil, List.append_nil]
  rw [hname] at hread hwritten ⊢
  rw [hcrosses, hquote hnil, readTag_cons, if_pos ⟨rfl, rfl⟩, Option.map_some] at hread
  simp only [List.append_nil, Option.some.injEq, Prod.mk.injEq] at hread
  refine ⟨hread.1.symm, hslash.resolve_right ?_⟩
  rintro rfl
  rw [hread.1, LooseTag.text, writtenTag] at hwritten
  simp only [List.append_assoc, List.append_cancel_left_eq, List.singleton_append] at hwritten
  -- Behind the name comes a blank, which the name cannot hold, or nothing at all.
  cases htail : tag.assignments.flatMap Assignment.text ++ tag.after with
  | cons c tail =>
    have hspace := tag.apart c (by rw [htail]; rfl)
    have hmem : c ∈ name := by
      rw [hread.1, LooseTag.text, htail]
      simp
    rw [h.unspaced c hmem] at hspace
    cases hspace
  | nil =>
    rw [← List.append_assoc, htail] at hwritten
    cases found with
    | nil => cases hwritten
    | cons a found => cases hwritten

/-- With attributes a tag ends behind the last. -/
theorem slash_eq_nil_of_ne_nil (hne : attributes ≠ []) {tag : LooseTag} {found : Attributes}
    (hgives : List.Forall₂ LooseTag.Gives tag.assignments found)
    {slash rest rest' after : List Char} (hslash : slash = [] ∨ slash = ['/'])
    (hread : readTag none (writtenTag name attributes ++ '>' :: rest) =
      some (tag.text ++ slash, after))
    (hwritten : writtenTag tag.name (writtenAttributes numbers found) ++ '>' :: rest' =
      writtenTag name attributes ++ '>' :: rest) :
    tag.text ++ slash = writtenTag name attributes ∧ slash = [] := by
  obtain ⟨quote, hcrosses, -⟩ := h.crossed
  obtain ⟨a, others, hattributes⟩ := List.exists_cons_of_ne_nil hne
  rw [writtenTag, List.append_assoc, hcrosses] at hread
  obtain ⟨⟨inside, after'⟩, hinside, heq⟩ := Option.map_eq_some_iff.mp hread
  rw [Prod.mk.injEq] at heq
  obtain ⟨htext, rfl⟩ := heq
  have hcut := append_of_readTag hinside
  obtain ⟨inside, rfl⟩ : ∃ more, inside = ' ' :: more := by
    rw [hattributes] at hcut
    cases inside with
    | nil => cases hcut
    | cons c inside => exact ⟨inside, by rw [(List.cons.inj hcut).1]⟩
  obtain ⟨rfl, hinside'⟩ := tag.name_eq_of_append h.unspaced hslash htext
  rw [writtenTag, writtenTag] at hwritten
  simp only [List.append_assoc, List.append_cancel_left_eq] at hwritten
  have hsame := flatMap_renderAttribute_inj (isLoose_writtenAttributes hgives) h.names hwritten
  -- As many assignments were read as were written, so the last ends where the last was written.
  have hlength : tag.assignments.length = attributes.length := by
    have hperm : (writtenAttributes numbers found).Perm _ :=
      writtenAttributes_perm (map_name_of_gives hgives ▸ tag.distinct)
    rw [hgives.length_eq, ← hsame, hperm.length_eq, List.length_map]
  rw [hinside', List.append_assoc] at hcut
  have hrow := row_eq_written tag.isAfter h.names hlength hcut.symm
  rw [hrow, List.append_cancel_left_eq] at hcut
  have hnone : slash = [] := by
    refine hslash.resolve_right ?_
    rintro rfl
    cases hcut
  rw [hnone, List.append_nil, LooseTag.text, hrow]
  exact ⟨rfl, rfl⟩

/-- **A tag that gives what was written** ends where that does. -/
theorem slash_eq_nil {p : Progress} {content slash rest rest' after : List Char} {item : Item}
    (hslash : slash = [] ∨ slash = ['/'])
    (hread : readTag none (writtenTag name attributes ++ '>' :: rest) =
      some (content ++ slash, after))
    (hitem : openingItem numbers p content = .ok item)
    (hrender : renderItem item ++ rest' = '<' :: (writtenTag name attributes ++ '>' :: rest)) :
    content ++ slash = writtenTag name attributes ∧ slash = [] := by
  obtain ⟨tag, found, rfl, hgives, rfl, -⟩ := exists_of_openingItem hitem
  have hwritten : writtenTag tag.name (writtenAttributes numbers found) ++ '>' :: rest' =
      writtenTag name attributes ++ '>' :: rest := by
    rw [renderItem, ← writtenTag, List.cons_append, List.append_assoc] at hrender
    exact (List.cons.inj hrender).2
  by_cases hnil : attributes = []
  · exact h.slash_eq_nil_of_nil hnil hslash hread hwritten
  · exact h.slash_eq_nil_of_ne_nil hnil hgives hslash hread hwritten

/-- **A tag that is written comes out of reading as it was only if it reads back.** Otherwise what
is read ends too early or is another kind of tag, and either is written in another way. -/
theorem tagReadsBack {p : Progress} {token : Token} {is : List Item} {p' : Progress}
    {rest rest' after : List Char}
    (hread : readMarkup (writtenTag name attributes ++ '>' :: rest) = some (token, after))
    (hstep : step numbers p token = .ok (is, p'))
    (hrender : render is ++ rest' = '<' :: (writtenTag name attributes ++ '>' :: rest)) :
    TagReadsBack name attributes := by
  rw [readMarkup_tag (h.head_writtenTag rest)] at hread
  obtain ⟨⟨inside, after'⟩, hread, heq⟩ := Option.map_eq_some_iff.mp hread
  cases heq
  -- A slash at the end would make it an empty element, which is written without one.
  rw [tagToken] at hstep
  split at hstep
  · rename_i content hdrop
    rw [Text.eq_append_of_dropEnding? hdrop] at hread
    obtain ⟨item, hitem, hstep⟩ := Result.bind_eq_ok_iff.mp hstep
    cases hstep
    rw [render, List.flatMap_cons, List.append_assoc] at hrender
    cases (h.slash_eq_nil (.inr rfl) hread hitem hrender).2
  · rename_i hdrop
    obtain ⟨item, hitem, hstep⟩ := Result.bind_eq_ok_iff.mp hstep
    cases hstep
    rw [render, List.flatMap_cons, List.append_assoc] at hrender
    have hsame := (h.slash_eq_nil (.inl rfl) (by rwa [List.append_nil]) hitem hrender).1
    rw [List.append_nil] at hsame
    subst hsame
    have hrest := List.append_cancel_left (append_of_readTag hread)
    cases hrest
    refine ⟨readTag_of_readTag [] hread, ?_⟩
    rintro ⟨content, hcontent⟩
    rw [← hcontent, Text.dropEnding?_append] at hdrop
    cases hdrop

end IsRead

end CachedRun.Xml
