import CachedRun.Proofs.Key.Framing
import CachedRun.Proofs.Xml.Reading

/-!
# Writing — a canonical form is that of one forest only

The canonical form of trees is written without any layout, so their first character, or the first
two, say what comes next: a text, an element, or the end of the element that they are in (`Lead`).
With that **the trees can be read off the canonical form** (`Forest.written_inj`), as long as texts are not
empty and no two of them are side by side (`Forest.Proper`).
-/

set_option autoImplicit false

namespace CachedRun.Xml

/-! ## Tags -/

theorem renderAttribute_ne_nil (a : List Char × List Char) : renderAttribute a ≠ [] := nofun

/-- An attribute ends with the quote of its value. -/
theorem prefixFree_renderAttribute :
    Key.PrefixFree (fun a : List Char × List Char => IsLoose a.1) renderAttribute := by
  rintro ⟨name, value⟩ ⟨name', value'⟩ s t hname hname' h
  obtain ⟨c, name, rfl⟩ := List.exists_cons_of_ne_nil hname.ne_nil
  obtain ⟨c', name', rfl⟩ := List.exists_cons_of_ne_nil hname'.ne_nil
  simp only [renderAttribute, List.cons_append, List.append_assoc, List.nil_append, List.cons.injEq,
    true_and] at h
  obtain ⟨rfl, h⟩ := h
  obtain ⟨rfl, hvalues⟩ := Text.append_cons_inj (fun hmem => (hname.rest _ hmem).1 rfl)
    (fun hmem => (hname'.rest _ hmem).1 rfl) h
  obtain ⟨hvalues, hrest⟩ :=
    Text.append_cons_inj not_mem_escape.2 not_mem_escape.2 (List.cons.inj hvalues).2
  exact ⟨Prod.ext rfl (escape_inj hvalues), hrest⟩

/-- What is known of the opening tag of an element. -/
structure IsTag (name : List Char) (attributes : Attributes) : Prop where
  name : IsName name
  names : ∀ a ∈ attributes, IsName a.1
  distinct : (attributes.map Prod.fst).Nodup

theorem StartTag.isTag (numbers : Bool) (tag : StartTag) :
    IsTag tag.name.chars (tag.values numbers) where
  name := tag.name.isName
  names := by
    intro a ha
    obtain ⟨written, -, rfl⟩ := List.mem_map.mp ha
    exact written.name.isName
  distinct := by
    rw [StartTag.values, List.map_map]
    exact tag.distinct

def writtenTag (name : List Char) (attributes : Attributes) : List Char :=
  name ++ attributes.flatMap renderAttribute

section Tag

variable {name name' : List Char} {attributes attributes' : Attributes}

theorem not_mem_writtenTag (h : IsTag name attributes) : '>' ∉ writtenTag name attributes := by
  rw [writtenTag, List.mem_append, not_or]
  refine ⟨h.name.not_mem (by decide), fun hmem => ?_⟩
  obtain ⟨⟨n, value⟩, ha, hmem⟩ := List.mem_flatMap.mp hmem
  have hn : '>' ∉ n := (h.names _ ha).not_mem (by decide)
  have hvalue : '>' ∉ escape value := not_mem_escape.1
  simp [renderAttribute, hn, hvalue] at hmem

theorem writtenTag_inj (h : IsTag name attributes) (h' : IsTag name' attributes')
    (heq : writtenTag name attributes = writtenTag name' attributes') :
    name = name' ∧ attributes = attributes' := by
  have hstop {l : Attributes} : ∀ c ∈ (l.flatMap renderAttribute).head?, (!isSpace c) = false := by
    cases l with
    | nil => nofun
    | cons a l =>
      rintro _ ⟨⟩
      rfl
  obtain ⟨hname, hattributes⟩ :=
    Text.append_inj_of_stop h.name.not_isSpace hstop h'.name.not_isSpace hstop heq
  exact ⟨hname, prefixFree_renderAttribute.flatMap_inj renderAttribute_ne_nil
    (fun a ha => (h.names a ha).isLoose) (fun a ha => (h'.names a ha).isLoose) hattributes⟩

end Tag

/-! ## Forests -/

/-- What a text goes on with: markup that closes or opens an element, or character data. -/
inductive Lead where
  | closing
  | opening
  | text
  deriving DecidableEq

def lead : List Char → Lead
  | [] | '<' :: '/' :: _ => .closing
  | '<' :: _ => .opening
  | _ => .text

theorem lead_of_ne {c : Char} {s : List Char} (h : c ≠ '<') : lead (c :: s) = .text := by
  rw [lead]
  · nofun
  · exact fun _ heq => h (List.cons.inj heq).1
  · exact fun _ heq => h (List.cons.inj heq).1

theorem lead_of_isName {name s : List Char} (h : IsName name) :
    lead ('<' :: (name ++ s)) = .opening := by
  obtain ⟨c, name, rfl⟩ := List.exists_cons_of_ne_nil h.ne_nil
  have hc : c ≠ '/' := ne_of_isNameChar (h.isNameChar c (List.mem_cons_self ..)) (by decide)
  rw [List.cons_append, lead]
  exact fun _ heq => hc (List.cons.inj heq).1

theorem lead_escape {content s : List Char} (h : content ≠ []) :
    lead (escape content ++ s) = .text := by
  obtain ⟨c, content, rfl⟩ := List.exists_cons_of_ne_nil h
  rw [escape, List.flatMap_cons]
  rcases (spelling_escapeChar c).exists_name with ⟨heq, hopen, -⟩ | ⟨name, heq, -⟩
  · rw [heq]
    exact lead_of_ne hopen
  · rw [heq]
    exact lead_of_ne (by decide)

/-- Markup keeps character data apart. -/
theorem opens_of_lead {s : List Char} (h : lead s ≠ .text) : Opens s := by
  cases s with
  | nil => exact .nil
  | cons c s =>
    rintro _ ⟨⟩
    by_contra hc
    exact h (lead_of_ne hc)

theorem escape_append_inj {content content' s t : List Char} (hs : Opens s) (ht : Opens t)
    (h : escape content ++ s = escape content' ++ t) :
    content = content' ∧ s = t := by
  have hrun {l : List Char} : ∀ c ∈ escape l, decide (c ≠ '<') = true := by
    rw [escape_eq_spelled]
    exact Text.forall_ne_of_not_mem not_mem_spelled
  obtain ⟨hcontent, hrest⟩ := Text.append_inj_of_stop hrun hs.stops hrun ht.stops h
  exact ⟨escape_inj hcontent, hrest⟩

namespace Forest

def lead {α : Type} : Forest α → Lead
  | .nil => .closing
  | .text .. => .text
  | .element .. => .opening

/-- Texts are not empty and apart from each other, and tags are as they can be read. -/
def Proper : Forest Attributes → Prop
  | .nil => True
  | .text content rest => content ≠ [] ∧ rest.lead ≠ .text ∧ rest.Proper
  | .element name attributes children rest =>
    IsTag name attributes ∧ children.Proper ∧ rest.Proper

/-- The canonical form of some trees. -/
def written : Forest Attributes → List Char
  | .nil => []
  | .text content rest => escape content ++ rest.written
  | .element name attributes children rest =>
    '<' :: (writtenTag name attributes ++
      '>' :: (children.written ++ '<' :: '/' :: (name ++ '>' :: rest.written)))

theorem render_items (f : Forest Attributes) : render f.items = f.written := by
  induction f with
  | nil => rfl
  | text content rest ih =>
    rw [items, render, List.flatMap_cons, ← render, ih]
    rfl
  | element name attributes children rest ihChildren ih =>
    rw [render] at ihChildren ih
    rw [items, render, List.flatMap_cons, List.flatMap_append, List.flatMap_cons, ihChildren, ih]
    simp [renderItem, written, writtenTag]

variable {f g : Forest Attributes} {s t : List Char}

theorem lead_written (h : f.Proper) (hs : Xml.lead s = .closing) :
    Xml.lead (f.written ++ s) = f.lead := by
  cases f with
  | nil => exact hs
  | text content rest =>
    rw [written, List.append_assoc]
    exact lead_escape h.1
  | element name attributes children rest =>
    rw [written, writtenTag, List.append_assoc, List.cons_append, List.append_assoc]
    exact lead_of_isName h.1.name

/-- **A canonical form is that of one forest only**, whatever closes it. The first characters tell
whether a text, an element or the end follows. A text ends where markup begins and a tag with its
sign, so the parts agree from the front. -/
theorem written_inj (hf : f.Proper) (hg : g.Proper) (hs : Xml.lead s = .closing)
    (ht : Xml.lead t = .closing) (h : f.written ++ s = g.written ++ t) : f = g ∧ s = t := by
  induction f generalizing g s t with
  | nil =>
    have hlead : Lead.closing = g.lead := by rw [← lead_written hg ht, ← h, ← hs]; rfl
    cases g with
    | nil => exact ⟨rfl, h⟩
    | text | element => nomatch hlead
  | text content rest ih =>
    have hlead : Lead.text = g.lead := by rw [← lead_written hg ht, ← h, lead_written hf hs]; rfl
    cases g with
    | nil | element => nomatch hlead
    | text content' rest' =>
      obtain ⟨-, hapart, hrest⟩ := hf
      obtain ⟨-, hapart', hrest'⟩ := hg
      rw [written, written, List.append_assoc, List.append_assoc] at h
      obtain ⟨rfl, htail⟩ := escape_append_inj (opens_of_lead (by rwa [lead_written hrest hs]))
        (opens_of_lead (by rwa [lead_written hrest' ht])) h
      obtain ⟨rfl, hst⟩ := ih hrest hrest' hs ht htail
      exact ⟨rfl, hst⟩
  | element name attributes children rest ihChildren ih =>
    have hlead : Lead.opening = g.lead := by rw [← lead_written hg ht, ← h, lead_written hf hs]; rfl
    cases g with
    | nil | text => nomatch hlead
    | element name' attributes' children' rest' =>
      obtain ⟨htag, hchildren, hrest⟩ := hf
      obtain ⟨htag', hchildren', hrest'⟩ := hg
      simp only [written, List.cons_append, List.append_assoc, List.cons.injEq, true_and] at h
      obtain ⟨hwritten, hinside⟩ :=
        Text.append_cons_inj (not_mem_writtenTag htag) (not_mem_writtenTag htag') h
      obtain ⟨rfl, rfl⟩ := writtenTag_inj htag htag' hwritten
      -- What closes the children is the closing tag and all that follows it.
      obtain ⟨rfl, htail⟩ := ihChildren hchildren hchildren' rfl rfl hinside
      simp only [List.cons.injEq, true_and, List.append_cancel_left_eq] at htail
      obtain ⟨rfl, hst⟩ := ih hrest hrest' hs ht htail
      exact ⟨rfl, hst⟩

end Forest

end CachedRun.Xml
