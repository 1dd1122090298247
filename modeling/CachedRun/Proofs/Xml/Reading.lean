import CachedRun.Proofs.Result
import CachedRun.Proofs.Xml.Assignment
import CachedRun.Proofs.Xml.Lexing

/-!
# Reading — the items of a document

The reader takes token after token and keeps the names of the elements that are open. For a part of a
document it is enough to know where it starts and where it ends, and what it gives in between:
`Yields` says that, and the statements for the parts are put side by side like the tokens.

Of a run of character data the reader sees the pieces one by one and trims each. What is left is the
trimmed run, because at most one piece is more than blanks (`flatMap_textItems`). So **the items of a
document are those of its trees**, with the attributes of each element sorted (`Document.items_text`).
-/

set_option autoImplicit false

namespace CachedRun.Xml

variable {numbers : Bool} {rest : List Char}

/-! ## Tags -/

theorem IsName.isLoose {s : List Char} (h : IsName s) : IsLoose s where
  ne_nil := h.ne_nil
  first := fun c hc => isSpace_of_isNameChar (h.isNameChar c (List.mem_of_head? hc))
  rest := fun c hc =>
    have hchar := h.isNameChar c (List.mem_of_mem_tail hc)
    ⟨ne_of_isNameChar hchar (by decide), isSpace_of_isNameChar hchar⟩

/-- An attribute of the grammar is one for the reader. -/
def Attribute.assignment (a : Attribute) : Assignment where
  before := a.before.chars
  isBefore := a.before.isBlank
  name := a.name.chars
  isLoose := a.name.isName.isLoose
  left := a.left.chars
  isLeft := a.left.isBlank
  right := a.right.chars
  isRight := a.right.isBlank
  quote := a.quote
  isQuote := a.isQuote
  value := spelled a.value
  unquoted := a.unquoted

theorem flatMap_assignment (attributes : List Attribute) :
    attributes.flatMap Attribute.text =
      (attributes.map Attribute.assignment).flatMap Assignment.text := by
  rw [List.flatMap_map]
  rfl

/-- Where an attribute may follow, a blank or nothing does. -/
theorem head?_attributes (attributes : List Attribute) (after : Blanks) :
    ∀ c ∈ (attributes.flatMap Attribute.text ++ after.chars).head?, isSpace c = true := by
  intro c hc
  cases attributes with
  | nil => exact after.isSpace_of_mem c (List.mem_of_head? hc)
  | cons a attributes =>
    obtain ⟨d, before, hbefore⟩ := List.exists_cons_of_ne_nil a.apart
    have hd : d ∈ a.before.chars := hbefore ▸ List.mem_cons_self ..
    rw [List.flatMap_cons, Attribute.text, hbefore] at hc
    cases hc
    exact a.before.isSpace_of_mem _ hd

section StartTags

variable (tag : StartTag)

/-- A tag of the grammar is one for the reader. -/
def StartTag.looseTag : LooseTag where
  name := tag.name.chars
  unspaced := fun _ hc => isSpace_of_isNameChar (tag.name.isName.isNameChar _ hc)
  assignments := tag.attributes.map Attribute.assignment
  after := tag.after.chars
  isAfter := tag.after.isBlank
  apart := by
    rw [← flatMap_assignment]
    exact head?_attributes tag.attributes tag.after
  distinct := by
    rw [List.map_map]
    exact tag.distinct

theorem StartTag.text_looseTag : tag.looseTag.text = tag.text := by
  rw [text, flatMap_assignment]
  rfl

theorem StartTag.tagName_text : tagName tag.text = tag.name.chars := by
  rw [← tag.text_looseTag, LooseTag.tagName_text]
  rfl

/-- **A tag is read** as its name and its attributes with their characters. -/
theorem StartTag.read?_text : Tag.read? tag.text =
    some ⟨tag.name.chars, tag.attributes.map fun a => (a.name.chars, a.value.map Sign.char)⟩ := by
  rw [← tag.text_looseTag]
  refine tag.looseTag.read?_text ?_
  rw [looseTag, List.forall₂_map_left_iff, List.forall₂_map_right_iff, List.forall₂_same]
  exact fun a _ => ⟨rfl, unescape_spelled a.value⟩

end StartTags

/-! ## Items -/

/-- From one state to another, some tokens give some items. -/
def Yields (numbers : Bool) (p : Progress) (ts : List Token) (is : List Item) (p' : Progress) : Prop :=
  ∀ more, itemsFrom numbers p (ts ++ more) = (itemsFrom numbers p' more).map (is ++ ·)

namespace Yields

variable {p p' p'' : Progress} {ts ts' : List Token} {is is' : List Item} {token : Token}

theorem nil : Yields numbers p [] [] p := by
  intro more
  cases h : itemsFrom numbers p more <;> simp [h, Except.map]

theorem append (h : Yields numbers p ts is p') (h' : Yields numbers p' ts' is' p'') :
    Yields numbers p (ts ++ ts') (is ++ is') p'' := by
  intro more
  rw [List.append_assoc, h, h']
  cases itemsFrom numbers p'' more <;> simp [Except.map]

theorem cons (h : step numbers p token = .ok (is, p')) (h' : Yields numbers p' ts is' p'') :
    Yields numbers p (token :: ts) (is ++ is') p'' := by
  intro more
  rw [List.cons_append, itemsFrom, h]
  simp only [bind, Except.bind]
  rw [h']
  cases itemsFrom numbers p'' more <;> simp [Except.map, pure, Except.pure]

/-- What is accepted is accepted part by part. -/
theorem exists_of_itemsFrom {us : List Token}
    (h : itemsFrom numbers p (ts ++ us) = .ok is) : ∃ is₁ is₂ p', is = is₁ ++ is₂ ∧
      Yields numbers p ts is₁ p' ∧ itemsFrom numbers p' us = .ok is₂ := by
  induction ts generalizing p is with
  | nil => exact ⟨[], is, p, rfl, .nil, h⟩
  | cons token ts ih =>
    rw [List.cons_append, itemsFrom] at h
    obtain ⟨⟨first, p'⟩, hstep, h⟩ := Result.bind_eq_ok_iff.mp h
    obtain ⟨others, hothers, heq⟩ := Result.bind_eq_ok_iff.mp h
    cases heq
    obtain ⟨is₁, is₂, p'', rfl, hyields, hrest⟩ := ih hothers
    exact ⟨first ++ is₁, is₂, p'', (List.append_assoc ..).symm, .cons hstep hyields, hrest⟩

end Yields

theorem render_append (is js : List Item) : render (is ++ js) = render is ++ render js :=
  List.flatMap_append

/-! ## Character data -/

/-- The item of character data, if it is more than blanks. -/
def textItems (numbers : Bool) (s : List Char) : List Item :=
  match Text.trim s with
  | [] => []
  | s => [.text (normalized numbers s)]

/-- Outside of the root there may only be blanks. -/
def Admits (p : Progress) (s : List Char) : Prop := p.opened = [] → s.all Text.isBlank = true

section CharacterData

variable {p : Progress} {s : List Char}

theorem textItems_of_blank (h : s.all Text.isBlank = true) : textItems numbers s = [] := by
  rw [textItems, Text.trim_eq_nil h]

theorem textItem_eq (h : Admits p s) : textItem numbers p s = .ok (textItems numbers s) := by
  unfold textItem textItems
  cases hs : Text.trim s with
  | nil => rfl
  | cons c rest =>
    refine if_neg fun hroot => ?_
    rw [Text.trim_eq_nil (h hroot)] at hs
    cases hs

/-- The reader gets the text without the blanks that the lexer has taken off. -/
theorem yields_text {raw : List Char} (hraw : unescape raw = some s) (h : Admits p s) :
    Yields numbers p (textTokens raw) (textItems numbers s) p := by
  obtain ⟨inner, hinner, htrim⟩ := unescape_trimSpace hraw
  rw [textTokens]
  split
  · rename_i hempty
    rw [hempty] at hinner
    cases hinner
    rw [textItems, ← htrim]
    exact .nil
  · rw [← List.append_nil (textItems numbers _)]
    refine .cons ?_ .nil
    have hitem : textItem numbers p inner = .ok (textItems numbers s) := by
      rw [← textItem_eq h, textItem, textItem, htrim]
    simp only [step, hinner, hitem]
    rfl

theorem step_section {x : Section} (h : Admits p x.chars) :
    step numbers p x.token = .ok (textItems numbers x.chars, p) := by
  cases x with
  | cdata chars hmark =>
    have hitem : textItem numbers p chars = .ok (textItems numbers chars) := textItem_eq h
    simp only [Section.token, step, hitem]
    rfl
  | aside a => rfl

/-- A trimmed run is the trimmed piece that is more than blanks. -/
theorem flatMap_textItems {l : List (List Char)} (h : (l.filter isSolid).length ≤ 1) :
    l.flatMap (textItems numbers) = textItems numbers l.flatten := by
  induction l with
  | nil => rfl
  | cons piece l ih =>
    rw [List.flatMap_cons, List.flatten_cons]
    by_cases hsolid : isSolid piece = true
    · -- Behind this piece there are only blanks.
      rw [List.filter_cons_of_pos hsolid, List.length_cons] at h
      have hblank : l.flatten.all Text.isBlank = true := by
        rw [List.all_flatten, List.all_eq_true]
        intro other hother
        by_contra hne
        have hmem : other ∈ l.filter isSolid :=
          List.mem_filter.mpr ⟨hother, by simpa [isSolid] using hne⟩
        have hpos := List.length_pos_of_mem hmem
        omega
      rw [ih (by omega), textItems_of_blank hblank, List.append_nil, textItems, textItems,
        Text.trim_append_right hblank]
    · have hblank : piece.all Text.isBlank = true := by simpa [isSolid] using hsolid
      rw [List.filter_cons_of_neg hsolid] at h
      rw [ih h, textItems_of_blank hblank, List.nil_append, textItems, textItems,
        Text.trim_append_left hblank]

theorem yields_run {more : List (Section × List Sign)} :
    ∀ {first : List Sign}, (∀ piece ∈ pieces first more, Admits p piece) →
      Yields numbers p
        (textTokens (spelled first) ++ more.flatMap fun m => m.1.token :: textTokens (spelled m.2))
        ((pieces first more).flatMap (textItems numbers)) p := by
  induction more with
  | nil =>
    intro first h
    rw [List.flatMap_nil, List.append_nil, pieces, List.flatMap_nil, List.flatMap_singleton]
    exact yields_text (unescape_spelled first) (h _ (List.mem_cons_self ..))
  | cons m more ih =>
    intro first h
    have hpieces : pieces first (m :: more) =
        first.map Sign.char :: m.1.chars :: pieces m.2 more := rfl
    rw [hpieces, List.forall_mem_cons, List.forall_mem_cons] at h
    rw [hpieces, List.flatMap_cons, List.flatMap_cons, List.flatMap_cons, List.cons_append]
    exact (yields_text (unescape_spelled first) h.1).append (.cons (step_section h.2.1) (ih h.2.2))

/-- **A run of character data** gives its text. -/
theorem Passage.yields (q : Passage) (h : Admits p q.chars) :
    Yields numbers p q.tokens (textItems numbers q.chars) p := by
  rw [Passage.chars, ← flatMap_textItems q.single]
  refine yields_run fun piece hpiece hroot => ?_
  have hall := h hroot
  rw [Passage.chars, List.all_flatten, List.all_eq_true] at hall
  exact hall piece hpiece

end CharacterData

/-! ## Elements -/

/-- The items of some trees. -/
def Forest.items : Forest Attributes → List Item
  | .nil => []
  | .text content rest => .text content :: rest.items
  | .element name attributes children rest =>
    .opening name attributes :: (children.items ++ .closing name :: rest.items)

theorem Passage.items_forest (q : Passage) (rest : Forest Attributes) :
    ((q.forest numbers rest).map sortAttributes).items =
      textItems numbers q.chars ++ (rest.map sortAttributes).items := by
  unfold Passage.forest textItems
  cases Text.trim q.chars <;> rfl

section Tags

variable {p : Progress} (tag : StartTag) (hroot : ¬ (p.opened = [] ∧ p.seenRoot = true))
include hroot

theorem openingItem_text : openingItem numbers p tag.text =
    .ok (.opening tag.name.chars (sortAttributes (tag.values numbers))) := by
  rw [openingItem, if_neg hroot, tag.read?_text]
  simp only [StartTag.values, List.map_map]
  rfl

theorem step_opening : step numbers p (.opening tag.text) =
    .ok ([.opening tag.name.chars (sortAttributes (tag.values numbers))],
      ⟨tag.name.chars :: p.opened, true⟩) := by
  rw [step, openingItem_text tag hroot, tag.tagName_text]
  rfl

theorem step_empty : step numbers p (.empty tag.text) =
    .ok ([.opening tag.name.chars (sortAttributes (tag.values numbers)), .closing tag.name.chars],
      ⟨p.opened, true⟩) := by
  rw [step, openingItem_text tag hroot, tag.tagName_text]
  rfl

end Tags

theorem step_closing {name : List Char} {opened : List (List Char)} {seenRoot : Bool} :
    step numbers ⟨name :: opened, seenRoot⟩ (.closing name) =
      .ok ([.closing name], ⟨opened, seenRoot⟩) := if_pos rfl

/-- **What an element holds** gives its trees, and leaves the element open. -/
theorem Content.yields (content : Content) {opened : List (List Char)} (hopened : opened ≠ []) :
    Yields numbers ⟨opened, true⟩ content.tokens
      ((content.forest numbers).map sortAttributes).items ⟨opened, true⟩ := by
  induction content generalizing opened with
  | last q =>
    rw [Content.tokens, Content.forest, q.items_forest, ← List.append_nil q.tokens]
    exact (q.yields fun hroot => absurd hroot hopened).append .nil
  | empty q tag rest ih =>
    have hempty := @step_empty numbers ⟨opened, true⟩ tag fun hroot => hopened hroot.1
    rw [Content.tokens, Content.forest, q.items_forest]
    exact (q.yields fun hroot => absurd hroot hopened).append (.cons hempty (ih hopened))
  | full q tag children after rest ihChildren ih =>
    have hopening := @step_opening numbers ⟨opened, true⟩ tag fun hroot => hopened hroot.1
    have hchildren := ihChildren (List.cons_ne_nil tag.name.chars opened)
    rw [Content.tokens, Content.forest, q.items_forest]
    exact (q.yields fun hroot => absurd hroot hopened).append <| .cons hopening <|
      hchildren.append <| .cons step_closing (ih hopened)

/-- **The items of a document** are those of its root. -/
theorem Document.items_text (d : Document) : items numbers d.text.toList =
    .ok ((d.forest numbers).map sortAttributes).items := by
  have hprolog : Yields numbers ⟨[], false⟩ d.prolog.tokens _ ⟨[], false⟩ :=
    d.prolog.yields fun _ => d.prologBlank
  have hepilog : Yields numbers ⟨[], true⟩ d.epilog.tokens _ ⟨[], true⟩ :=
    d.epilog.yields fun _ => d.epilogBlank
  -- The text around the root is blank, and gives no items.
  rw [textItems_of_blank d.prologBlank] at hprolog
  rw [textItems_of_blank d.epilogBlank] at hepilog
  have hempty := @step_empty numbers ⟨[], false⟩ d.tag fun hroot => nomatch hroot.2
  have hopening := @step_opening numbers ⟨[], false⟩ d.tag fun hroot => nomatch hroot.2
  have hyields : Yields numbers ⟨[], false⟩ d.content.tokens
      ((d.forest numbers).map sortAttributes).items ⟨[], true⟩ := by
    unfold Document.content Document.forest
    -- An empty root is one token; any other opens, holds its children and closes.
    cases d.body with
    | none => exact hprolog.append (.cons hempty hepilog)
    | some body =>
      obtain ⟨children, after⟩ := body
      exact hprolog.append <| .cons hopening <|
        (children.yields (List.cons_ne_nil _ _)).append <| .cons step_closing hepilog
  have hend := hyields []
  rw [List.append_nil] at hend
  rw [items, d.tokens_text, hend]
  simp [itemsFrom, Except.map]

end CachedRun.Xml
