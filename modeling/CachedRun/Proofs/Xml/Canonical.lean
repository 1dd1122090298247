import CachedRun.Proofs.Dict
import CachedRun.Proofs.Xml.Number
import CachedRun.Proofs.Xml.Writing
import Mathlib.Data.List.Nodup

/-!
# Canonical XML — a normal form

> **Two documents have one canonical form exactly if they say the same.**

That is `canonical_eq_iff`. What a document says is its tree, and that its text determines the tree
is not what is claimed: it is its canonical form that does. One direction needs that layout is
forgotten, which is reading (`Document.items_text`), the other that nothing else is, which is writing
(`Forest.written_inj`).

Between the two stand the attributes. The tree has them by their names and the canonical form in an
order, and for different names that comes to the same (`sortAttributes_eq_iff`).
-/

set_option autoImplicit false

namespace CachedRun.Xml

/-! ## Attributes -/

section Attributes

variable {l m : Attributes}

theorem nodup_ofList_names (h : (l.map Prod.fst).Nodup) :
    ((l.map fun a => (String.ofList a.1, a.2)).map Prod.fst).Nodup := by
  rw [List.map_map]
  have hinj : Function.Injective String.ofList := fun _ _ => String.ofList_inj.mp
  have hnames := List.Nodup.map hinj h
  rwa [List.map_map] at hnames

/-- Sorting attributes with different names moves them about. -/
theorem sortAttributes_perm (h : (l.map Prod.fst).Nodup) : (sortAttributes l).Perm l := by
  have hperm := (Dict.ofList_perm (nodup_ofList_names h)).map fun a => (a.1.toList, a.2)
  rw [List.map_map] at hperm
  have hsame : ((fun a : String × List Char => (a.1.toList, a.2)) ∘
      fun a : List Char × List Char => (String.ofList a.1, a.2)) = id := by
    funext a
    simp
  rwa [hsame, List.map_id] at hperm

theorem IsTag.sorted {name : List Char} (h : IsTag name l) : IsTag name (sortAttributes l) where
  name := h.name
  names := fun a ha => h.names a ((sortAttributes_perm h.distinct).mem_iff.mp ha)
  distinct := ((sortAttributes_perm h.distinct).map Prod.fst).nodup_iff.mpr h.distinct

theorem sortAttributes_eq_of_perm (h : (l.map Prod.fst).Nodup) (hperm : l.Perm m) :
    sortAttributes l = sortAttributes m := by
  have hm := (hperm.map Prod.fst).nodup_iff.mp h
  have htables := (Dict.ofList_perm (nodup_ofList_names h)).trans <|
    (hperm.map _).trans (Dict.ofList_perm (nodup_ofList_names hm)).symm
  exact congrArg (List.map fun a => (a.1.toList, a.2))
    (Dict.sorted_ofList.eq_of_perm Dict.sorted_ofList htables)

theorem byName_eq_some_iff (h : (l.map Prod.fst).Nodup) {name value : List Char} :
    byName l name = some value ↔ (name, value) ∈ l := by
  induction l with
  | nil => simp [byName]
  | cons a l ih =>
    rw [List.map_cons, List.nodup_cons] at h
    obtain ⟨first, found⟩ := a
    rw [byName, List.lookup_cons, ← byName, List.mem_cons, Prod.mk.injEq]
    by_cases hname : name = first
    · -- The name is not given again.
      subst hname
      have hnew : (name, value) ∉ l := fun hmem => h.1 (List.mem_map.mpr ⟨_, hmem, rfl⟩)
      simp [hnew, eq_comm]
    · have hne : (name == first) = false := by simpa using hname
      simp [hne, hname, ih h.2]

/-- **Sorted attributes are attributes by name.** -/
theorem sortAttributes_eq_iff (hl : (l.map Prod.fst).Nodup) (hm : (m.map Prod.fst).Nodup) :
    sortAttributes l = sortAttributes m ↔ byName l = byName m := by
  constructor
  · intro h
    have hperm : l.Perm m := (sortAttributes_perm hl).symm.trans (h ▸ sortAttributes_perm hm)
    funext name
    refine Option.ext fun value => ?_
    rw [byName_eq_some_iff hl, byName_eq_some_iff hm, hperm.mem_iff]
  · intro h
    refine sortAttributes_eq_of_perm hl ?_
    rw [List.perm_ext_iff_of_nodup (List.Nodup.of_map _ hl) (List.Nodup.of_map _ hm)]
    rintro ⟨name, value⟩
    rw [← byName_eq_some_iff hl, h, byName_eq_some_iff hm]

end Attributes

/-! ## Forests of documents -/

namespace Forest

variable {f g : Forest Attributes}

theorem lead_map {α β : Type} (u : α → β) (f : Forest α) : (f.map u).lead = f.lead := by
  cases f <;> rfl

theorem Proper.sorted (h : f.Proper) : (f.map sortAttributes).Proper := by
  induction f with
  | nil => trivial
  | text content rest ih => exact ⟨h.1, by rw [lead_map]; exact h.2.1, ih h.2.2⟩
  | element name attributes children rest ihChildren ih =>
    obtain ⟨htag, hchildren, hrest⟩ := h
    exact ⟨htag.sorted, ihChildren hchildren, ih hrest⟩

/-- The order of attributes is all that a tree forgets. -/
theorem map_sortAttributes_eq_iff (hf : f.Proper) (hg : g.Proper) :
    f.map sortAttributes = g.map sortAttributes ↔ f.map byName = g.map byName := by
  induction f generalizing g with
  | nil => cases g <;> simp [map]
  | text content rest ih =>
    cases g with
    | nil | element => simp [map]
    | text content' rest' => simp only [map, text.injEq, ih hf.2.2 hg.2.2]
  | element name attributes children rest ihChildren ih =>
    cases g with
    | nil | text => simp [map]
    | element name' attributes' children' rest' =>
      simp only [map, element.injEq, sortAttributes_eq_iff hf.1.distinct hg.1.distinct,
        ihChildren hf.2.1 hg.2.1, ih hf.2.2 hg.2.2]

end Forest

theorem Passage.proper_forest {numbers : Bool} (q : Passage) {rest : Forest Attributes}
    (h : rest.Proper) (hlead : rest.lead ≠ .text) : (q.forest numbers rest).Proper := by
  unfold Passage.forest
  split
  · exact h
  · rename_i hne
    exact ⟨normalized_ne_nil hne, hlead, h⟩

theorem Content.proper_forest (numbers : Bool) (content : Content) :
    (content.forest numbers).Proper := by
  induction content with
  | last q => exact q.proper_forest trivial nofun
  | empty q tag rest ih => exact q.proper_forest ⟨tag.isTag numbers, trivial, ih⟩ nofun
  | full q tag children after rest ihChildren ih =>
    exact q.proper_forest ⟨tag.isTag numbers, ihChildren, ih⟩ nofun

theorem Document.proper_forest (numbers : Bool) (d : Document) : (d.forest numbers).Proper := by
  unfold Document.forest
  cases d.body with
  | none => exact ⟨d.tag.isTag numbers, trivial, trivial⟩
  | some body => exact ⟨d.tag.isTag numbers, body.1.proper_forest numbers, trivial⟩

/-! ## The canonical form -/

/-- Every document has a canonical form. -/
theorem canonical_text (numbers : Bool) (d : Document) : canonical numbers d.text =
    .ok (String.ofList ((d.forest numbers).map sortAttributes).written) := by
  rw [canonical, canonicalChars, d.items_text, Except.map, Forest.render_items]
  rfl

/-- **Canonical XML is a sound and complete normal form**: documents have one, and it is the same
exactly if their trees are. For one half a document is read into its tree and written from that, for
the other one a forest is told from what was written of it (`Forest.written_inj`). -/
theorem canonical_eq_iff (numbers : Bool) (a b : Document) :
    ∃ c d, canonical numbers a.text = .ok c ∧ canonical numbers b.text = .ok d ∧
      (c = d ↔ a.tree numbers = b.tree numbers) := by
  have ha := a.proper_forest numbers
  have hb := b.proper_forest numbers
  refine ⟨_, _, canonical_text numbers a, canonical_text numbers b, ?_⟩
  rw [String.ofList_inj, Document.tree, Document.tree, ← Forest.map_sortAttributes_eq_iff ha hb]
  refine ⟨fun h => ?_, fun h => by rw [h]⟩
  exact (Forest.written_inj (s := []) (t := []) ha.sorted hb.sorted rfl rfl (by rw [h])).1

/-! ### A document and its layout -/

/-- Character data where every character is escaped. -/
def plainly (s : String) : List Sign := s.toList.map Sign.escaped

def noBlanks : Blanks := ⟨[], rfl⟩

def shakePassage : Passage :=
  ⟨plainly "\n 8.50 ", [(.aside (.comment " g ".toList (by decide)), plainly "\n")], by decide⟩

def shakeTag : StartTag where
  name := ⟨'p', "ga".toList, by decide, by decide⟩
  attributes :=
    [⟨⟨[' '], rfl⟩, by decide, ⟨'u', [], by decide, rfl⟩, noBlanks, ⟨[' '], rfl⟩, '\'', by decide,
        plainly "g", by decide⟩,
      ⟨⟨[' '], rfl⟩, by decide, ⟨'s', [], by decide, rfl⟩, noBlanks, noBlanks, '"', by decide,
        plainly "+1e0", by decide⟩]
  distinct := by decide
  after := noBlanks

def shake : Document where
  mark := true
  prolog := ⟨[], [(.aside (.instruction ⟨'x', "ml".toList, by decide, by decide⟩
    " version='1.0'".toList (by decide)), [])], by decide⟩
  tag := shakeTag
  body := some (.last shakePassage, noBlanks)
  epilog := ⟨plainly "\n", [], by decide⟩
  prologBlank := by decide
  epilogBlank := by decide

example : shake.text =
    "\uFEFF<?xml version='1.0'?><pga u= 'g' s=\"+1e0\">\n 8.50 <!-- g -->\n</pga>\n" := by
  decide +kernel

example : (canonical true shake.text).toOption = some "<pga s=\"1e0\" u=\"g\">8.5</pga>" := by
  decide +kernel

end CachedRun.Xml
