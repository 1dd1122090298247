import CachedRun.Proofs.Xml.Root
import CachedRun.Validator

/-!
# Validators — the documents of a schema

The validator of a schema looks at the tag of a document's root, and at two things in it: the
namespace that the tag binds, and its last attribute for the locations of schemas. **It accepts the
documents that belong to the schema, and besides them those whose namespace is nothing but slashes**
(`accepts_schema_iff`): that a namespace must not be empty is asked before its slashes are dropped,
so one of slashes alone begins the location of every schema.

Which attribute is last is a matter of order, and the order of attributes is what a canonical form
forgets. **Documents with one canonical form get one verdict** exactly if their namespace is accepted
or their last locations agree about the schema (`verdicts_agree_iff`), which they must if all
locations of the root do.
-/

set_option autoImplicit false

namespace CachedRun

namespace Xml

variable {tag tag' : Tag} {name key space location schema : List Char}

/-! ## What a tag says about schemas -/

/-- The attribute that binds the namespace of an element: that of the prefix of its name or, for a
name without one, the default namespace. -/
inductive IsBinding : List Char → List Char → Prop
  | own {pre rest : List Char} (h : ':' ∉ pre) :
    IsBinding (pre ++ ':' :: rest) ("xmlns:".toList ++ pre)
  | default {name : List Char} (h : ':' ∉ name) : IsBinding name "xmlns".toList

/-- A namespace is, without the slashes at its end, the beginning of a schema's location, and there
is something left of it. -/
def Begins (space schema : List Char) : Prop :=
  ∃ base slashes, space = base ++ slashes ∧ (∀ c ∈ base.getLast?, c ≠ '/') ∧
    (∀ c ∈ slashes, c = '/') ∧ base ≠ [] ∧ base <+: schema

def IsSlashes (space : List Char) : Prop := space ≠ [] ∧ ∀ c ∈ space, c = '/'

namespace Tag

/-- The tag binds its own name to a namespace. -/
def Binds (tag : Tag) (space : List Char) : Prop :=
  ∃ key, IsBinding tag.name key ∧ (key, space) ∈ tag.attributes

/-- An attribute gives the locations of schemas, with any prefix or none, and is not the one that
binds the namespace of the tag. -/
def IsLocator (tag : Tag) (key : List Char) : Prop :=
  ¬ IsBinding tag.name key ∧
    (key = "schemaLocation".toList ∨ ":schemaLocation".toList <:+ key)

/-- What the last attribute for the locations of schemas says. -/
def Locates (tag : Tag) (location : List Char) : Prop :=
  ∃ before key after, tag.attributes = before ++ (key, location) :: after ∧
    tag.IsLocator key ∧ ∀ a ∈ after, ¬ tag.IsLocator a.1

def Lists (tag : Tag) (schema : List Char) : Prop :=
  ∃ location, tag.Locates location ∧ Text.IsWord schema location

/-- The root belongs to a schema: its namespace begins the location of the schema, or its last
attribute for locations lists it. -/
def BelongsTo (tag : Tag) (schema : List Char) : Prop :=
  (∃ space, tag.Binds space ∧ Begins space schema) ∨ tag.Lists schema

def BindsSlashes (tag : Tag) : Prop := ∃ space, tag.Binds space ∧ IsSlashes space

/-- The namespace of the tag is accepted for a schema. -/
def Admits (tag : Tag) (schema : List Char) : Prop :=
  ∃ space, tag.Binds space ∧ (Begins space schema ∨ IsSlashes space)

/-- All that the tag says about the locations of schemas is one about this schema. -/
def IsOfOneMind (tag : Tag) (schema : List Char) : Prop :=
  ∀ a ∈ tag.attributes, ∀ b ∈ tag.attributes, tag.IsLocator a.1 → tag.IsLocator b.1 →
    (Text.IsWord schema a.2 ↔ Text.IsWord schema b.2)

end Tag

/-! ## Namespaces -/

theorem isBinding_iff : IsBinding name key ↔ key = bindingAttribute name := by
  constructor
  · rintro (h | h)
    · rw [bindingAttribute, splitAtFirst?_append h]
    · rw [bindingAttribute, splitAtFirst?_eq_none h]
  · rintro rfl
    by_cases h : ':' ∈ name
    · obtain ⟨pre, rest, rfl, hpre⟩ := List.eq_append_cons_of_mem h
      rw [bindingAttribute, splitAtFirst?_append hpre]
      exact .own hpre
    · rw [bindingAttribute, splitAtFirst?_eq_none h]
      exact .default h

theorem map_find?_eq_byName (l : Attributes) (key : List Char) :
    (l.find? fun a => a.1 = key).map Prod.snd = byName l key := by
  induction l with
  | nil => rfl
  | cons a l ih =>
    rw [byName, List.find?_cons, List.lookup_cons, BEq.comm]
    by_cases h : a.1 = key
    · simp [h]
    · rw [decide_eq_false h, beq_eq_false_iff_ne.mpr h]
      exact ih

theorem space_rootOf_eq_some_iff (hdistinct : (tag.attributes.map Prod.fst).Nodup)
    {space : String} : (rootOf tag).space = some space ↔ tag.Binds space.toList := by
  have hspace : (rootOf tag).space =
      (byName tag.attributes (bindingAttribute tag.name)).map String.ofList := by
    rw [← map_find?_eq_byName, Option.map_map]
    rfl
  simp only [hspace, Option.map_eq_some_iff, byName_eq_some_iff hdistinct, Tag.Binds, isBinding_iff]
  constructor
  · rintro ⟨value, hmem, rfl⟩
    exact ⟨_, rfl, by rwa [String.toList_ofList]⟩
  · rintro ⟨_, rfl, hmem⟩
    exact ⟨_, hmem, String.ofList_toList⟩

theorem begins_iff : Begins space schema ↔
    Text.dropEndWhile (· == '/') space ≠ [] ∧ Text.dropEndWhile (· == '/') space <+: schema := by
  constructor
  · rintro ⟨base, slashes, rfl, hlast, hslashes, hne, hbegins⟩
    have hbase : Text.dropEndWhile (· == '/') (base ++ slashes) = base := by
      rw [Text.dropEndWhile_append (by simpa using hslashes)]
      exact Text.dropEndWhile_of_getLast? (by simpa using hlast)
    rw [hbase]
    exact ⟨hne, hbegins⟩
  · rintro ⟨hne, hbegins⟩
    obtain ⟨slashes, hspace, hslashes⟩ := Text.exists_dropEndWhile (· == '/') space
    refine ⟨_, slashes, hspace, fun c hc => ?_, by simpa using hslashes, hne, hbegins⟩
    simpa using Text.getLast?_dropEndWhile _ _ c hc

theorem isSlashes_iff :
    IsSlashes space ↔ space ≠ [] ∧ Text.dropEndWhile (· == '/') space = [] := by
  refine and_congr_right fun _ => (List.rdropWhile_eq_nil_iff.trans ?_).symm
  simp only [beq_iff_eq]

/-- The two ways for a namespace to be accepted exclude each other. -/
theorem Begins.not_isSlashes (h : Begins space schema) : ¬ IsSlashes space :=
  fun hslashes => (begins_iff.mp h).1 (isSlashes_iff.mp hslashes).2

/-- **A namespace is accepted** if it begins the schema's location or has nothing but slashes. -/
theorem spaceMatches_iff {schema space : String} : spaceMatches schema space = true ↔
    Begins space.toList schema.toList ∨ IsSlashes space.toList := by
  rw [spaceMatches, Bool.and_eq_true, decide_eq_true_eq, Text.isSome_dropStart?_iff, ne_eq,
    ← String.toList_eq_nil_iff, begins_iff, isSlashes_iff]
  by_cases hbase : Text.dropEndWhile (· == '/') space.toList = []
  · simp [hbase]
  · have hne : space.toList ≠ [] := by
      rintro hnil
      rw [hnil] at hbase
      exact hbase rfl
    simp [hbase, hne]

/-! ## Locations -/

theorem isLocator_iff : tag.IsLocator key ↔
    (decide (key ≠ bindingAttribute tag.name) && isLocation key) = true := by
  rw [Bool.and_eq_true, decide_eq_true_eq, isLocation, Bool.or_eq_true, decide_eq_true_eq,
    Text.isSome_dropEnding?_iff, Tag.IsLocator, isBinding_iff]

theorem location_rootOf_eq_some_iff {location : String} :
    (rootOf tag).location = some location ↔ tag.Locates location.toList := by
  have hlocation : (rootOf tag).location = (tag.attributes.reverse.find? fun a =>
      a.1 ≠ bindingAttribute tag.name && isLocation a.1).map fun a => String.ofList a.2 := by
    rw [← List.getLast?_filter]
    rfl
  simp only [hlocation, Option.map_eq_some_iff, List.find?_eq_some_iff_append, ← isLocator_iff,
    Bool.not_eq_true', ← Bool.not_eq_true]
  constructor
  · rintro ⟨⟨key, value⟩, ⟨hlocator, after, before, hreverse, hafter⟩, rfl⟩
    refine ⟨before.reverse, key, after.reverse, ?_, hlocator, fun a ha => ?_⟩
    · rw [← List.reverse_inj, hreverse]
      simp
    · exact hafter a (List.mem_reverse.mp ha)
  · rintro ⟨before, key, after, happend, hlocator, hafter⟩
    refine ⟨(key, location.toList), ⟨hlocator, after.reverse, before.reverse, ?_, ?_⟩,
      String.ofList_toList⟩
    · rw [happend]
      simp
    · exact fun a ha => hafter a (List.mem_reverse.mp ha)

theorem Tag.Locates.exists_mem (h : tag.Locates location) :
    ∃ key, (key, location) ∈ tag.attributes ∧ tag.IsLocator key := by
  obtain ⟨before, key, after, happend, hlocator, -⟩ := h
  exact ⟨key, by simp [happend], hlocator⟩

/-- With an attribute for locations there is a last one. -/
theorem exists_locates {a : List Char × List Char} (ha : a ∈ tag.attributes)
    (hlocator : tag.IsLocator a.1) : ∃ location, tag.Locates location := by
  have hmem : a ∈ tag.attributes.filter fun a =>
      a.1 ≠ bindingAttribute tag.name && isLocation a.1 :=
    List.mem_filter.mpr ⟨ha, isLocator_iff.mp hlocator⟩
  have hlast := List.getLast?_eq_some_getLast (List.ne_nil_of_mem hmem)
  have hlocation : (rootOf tag).location = some _ :=
    congrArg (Option.map fun a : List Char × List Char => String.ofList a.2) hlast
  exact ⟨_, location_rootOf_eq_some_iff.mp hlocation⟩

/-! ## Verdicts -/

theorem exists_toList_iff (p : List Char → Prop) : (∃ s : String, p s.toList) ↔ ∃ s, p s :=
  ⟨fun ⟨s, h⟩ => ⟨s.toList, h⟩, fun ⟨s, h⟩ => ⟨String.ofList s, by rwa [String.toList_ofList]⟩⟩

/-- **A root is taken to belong to a schema** if its namespace is accepted or it lists the schema.
-/
theorem belongsTo_rootOf_iff (hdistinct : (tag.attributes.map Prod.fst).Nodup) {schema : String} :
    (rootOf tag).belongsTo schema = true ↔ tag.Admits schema.toList ∨ tag.Lists schema.toList := by
  have hspace : (rootOf tag).space.any (spaceMatches schema) = true ↔ tag.Admits schema.toList := by
    simp only [Option.any_eq_true, space_rootOf_eq_some_iff hdistinct, spaceMatches_iff]
    exact exists_toList_iff fun space => tag.Binds space ∧ (Begins space _ ∨ IsSlashes space)
  have hlocation : ((rootOf tag).location.any fun location =>
      (Text.words location.toList).contains schema.toList) = true ↔ tag.Lists schema.toList := by
    simp only [Option.any_eq_true, location_rootOf_eq_some_iff, List.contains_iff_mem,
      Text.mem_words_iff]
    exact exists_toList_iff fun location => tag.Locates location ∧ Text.IsWord _ location
  rw [Root.belongsTo, Bool.or_eq_true, hspace, hlocation]

theorem admits_or_lists_iff :
    tag.Admits schema ∨ tag.Lists schema ↔ tag.BelongsTo schema ∨ tag.BindsSlashes := by
  have hadmits : tag.Admits schema ↔
      (∃ space, tag.Binds space ∧ Begins space schema) ∨ tag.BindsSlashes := by
    simp only [Tag.Admits, Tag.BindsSlashes, and_or_left, exists_or]
  rw [hadmits, or_right_comm]
  rfl

end Xml

namespace Validator

open Xml

/-- The validator of a schema looks at the root's tag alone. -/
theorem check_schema_eq_none_iff {schema : String} {v : Value} :
    (Validator.schema schema).check v = none ↔ ∃ document tag, v.document? = some document ∧
      IsRoot document.toList tag ∧ (tag.Admits schema.toList ∨ tag.Lists schema.toList) := by
  rw [check]
  cases hdocument : v.document? with
  | none => simp
  | some document =>
    constructor
    · intro h
      dsimp only at h
      split at h
      · rename_i root hroot
        split at h
        · rename_i hbelongs
          obtain ⟨tag, htag, rfl⟩ := root_eq_ok_iff.mp hroot
          exact ⟨document, tag, rfl, htag, (belongsTo_rootOf_iff htag.distinct).mp hbelongs⟩
        · cases h
      · cases h
    · rintro ⟨_, tag, ⟨⟩, htag, haccepted⟩
      have hbelongs := (belongsTo_rootOf_iff htag.distinct).mpr haccepted
      simp only [root_eq_ok_iff.mpr ⟨tag, htag, rfl⟩, if_pos hbelongs]

/-- **The validator of a schema accepts** the documents that belong to the schema, and those whose
namespace has nothing but slashes. Such a namespace passes the test that it is not empty, loses its
slashes afterwards, and then is a prefix of every schema. -/
theorem accepts_schema_iff (schema : String) (v : Value) :
    (Validator.schema schema).check v = none ↔ ∃ document tag, v.document? = some document ∧
      IsRoot document.toList tag ∧ (tag.BelongsTo schema.toList ∨ tag.BindsSlashes) := by
  rw [check_schema_eq_none_iff]
  simp only [admits_or_lists_iff]

/-- A namespace of slashes alone belongs to no schema, and is accepted for every one. -/
theorem slashes_accepted : ¬ ∀ (schema : String) (v : Value),
    (Validator.schema schema).check v = none ↔ ∃ document tag, v.document? = some document ∧
      IsRoot document.toList tag ∧ tag.BelongsTo schema.toList := by
  intro h
  have haccepted : (Validator.schema "s").check (.xml "<a xmlns='/'/>") = none := by decide +kernel
  obtain ⟨_, tag, ⟨⟩, hroot, hbelongs⟩ := (h _ _).mp haccepted
  have htokens : tokens "<a xmlns='/'/>".toList = [.empty "a xmlns='/'".toList] := by decide +kernel
  have hread : Tag.read? "a xmlns='/'".toList = some ⟨['a'], [("xmlns".toList, ['/'])]⟩ := by
    decide +kernel
  obtain rfl := hroot.unique ⟨_, htokens ▸ .empty .., hread⟩
  rcases hbelongs with ⟨space, ⟨key, -, hmem⟩, hbegins⟩ | ⟨location, hlocates, -⟩
  · cases List.mem_singleton.mp hmem
    exact hbegins.not_isSlashes ⟨List.cons_ne_nil _ _, List.forall_mem_singleton.mpr rfl⟩
  · obtain ⟨key, hmem, hlocator⟩ := hlocates.exists_mem
    cases List.mem_singleton.mp hmem
    exact hlocator.1 (.default (by simp))

/-! ## Documents with one canonical form -/

section Reordered

variable {tag tag' : Tag} {schema : List Char} (hname : tag.name = tag'.name)
  (hperm : tag.attributes.Perm tag'.attributes)
include hname hperm

theorem admits_iff_of_perm : tag.Admits schema ↔ tag'.Admits schema := by
  simp only [Tag.Admits, Tag.Binds, hname, hperm.mem_iff]

theorem isOfOneMind_iff_of_perm : tag.IsOfOneMind schema ↔ tag'.IsOfOneMind schema := by
  simp only [Tag.IsOfOneMind, Tag.IsLocator, hname, hperm.mem_iff]

/-- What is last among locations of one mind does not matter. -/
theorem lists_of_perm (hmind : tag.IsOfOneMind schema) (h : tag.Lists schema) :
    tag'.Lists schema := by
  obtain ⟨location, hlocates, hword⟩ := h
  obtain ⟨key, hmem, hlocator⟩ := hlocates.exists_mem
  have hlocators : ∀ key, tag.IsLocator key ↔ tag'.IsLocator key := fun key => by
    rw [Tag.IsLocator, Tag.IsLocator, hname]
  obtain ⟨location', hlocates'⟩ :=
    exists_locates (hperm.mem_iff.mp hmem) ((hlocators key).mp hlocator)
  obtain ⟨key', hmem', hlocator'⟩ := hlocates'.exists_mem
  have hsame := hmind _ hmem _ (hperm.mem_iff.mpr hmem') hlocator ((hlocators key').mpr hlocator')
  exact ⟨location', hlocates', hsame.mp hword⟩

end Reordered

theorem check_schema_xml_iff {schema document : String} {tag : Tag}
    (hroot : IsRoot document.toList tag) : (Validator.schema schema).check (.xml document) = none ↔
      tag.Admits schema.toList ∨ tag.Lists schema.toList := by
  rw [check_schema_eq_none_iff]
  constructor
  · rintro ⟨_, tag', ⟨⟩, hroot', haccepted⟩
    rwa [hroot.unique hroot']
  · exact fun haccepted => ⟨document, tag, rfl, hroot, haccepted⟩

/-- **The verdicts on two documents with one canonical form** are the same exactly if the namespace
of their roots is accepted or their last locations agree about the schema. The form keeps the
attributes of the root up to their order, and of several locations it is the order that decides
which one counts. -/
theorem verdicts_agree_iff {a b c : String} (ha : canonical false a = .ok c)
    (hb : canonical false b = .ok c) : ∃ tag tag', IsRoot a.toList tag ∧ IsRoot b.toList tag' ∧
      tag.name = tag'.name ∧ tag.attributes.Perm tag'.attributes ∧ ∀ schema : String,
        (((Validator.schema schema).check (.xml a) = none ↔
            (Validator.schema schema).check (.xml b) = none) ↔
          tag.Admits schema.toList ∨ (tag.Lists schema.toList ↔ tag'.Lists schema.toList)) ∧
        (tag.IsOfOneMind schema.toList → ((Validator.schema schema).check (.xml a) = none ↔
          (Validator.schema schema).check (.xml b) = none)) := by
  obtain ⟨ca, hca, rfl⟩ := Result.map_eq_ok_iff.mp ha
  obtain ⟨cb, hcb, hc⟩ := Result.map_eq_ok_iff.mp hb
  obtain rfl := String.ofList_injective hc
  obtain ⟨tag, tag', hroot, hroot', hname, hperm⟩ := roots_of_canonical_eq hca hcb
  refine ⟨tag, tag', hroot, hroot', hname, hperm, fun schema => ?_⟩
  have hadmits : tag.Admits schema.toList ↔ tag'.Admits schema.toList :=
    admits_iff_of_perm hname hperm
  rw [check_schema_xml_iff hroot, check_schema_xml_iff hroot', ← hadmits]
  refine ⟨by tauto, fun hmind => or_congr_right ⟨lists_of_perm hname hperm hmind, ?_⟩⟩
  exact lists_of_perm hname.symm hperm.symm ((isOfOneMind_iff_of_perm hname hperm).mp hmind)

theorem verdicts_agree_iff_swapped :
    canonical false "<a xmlns='u' id='1'/>" = .ok "<a id=\"1\" xmlns=\"u\"></a>" ∧
    canonical false "<a id='1' xmlns='u'/>" = .ok "<a id=\"1\" xmlns=\"u\"></a>" ∧
    ∃ tag tag', IsRoot "<a xmlns='u' id='1'/>".toList tag ∧
      IsRoot "<a id='1' xmlns='u'/>".toList tag' ∧ tag.name = tag'.name ∧
      tag.attributes.Perm tag'.attributes ∧ ∀ schema : String,
        (((Validator.schema schema).check (.xml "<a xmlns='u' id='1'/>") = none ↔
            (Validator.schema schema).check (.xml "<a id='1' xmlns='u'/>") = none) ↔
          tag.Admits schema.toList ∨ (tag.Lists schema.toList ↔ tag'.Lists schema.toList)) ∧
        (tag.IsOfOneMind schema.toList →
          ((Validator.schema schema).check (.xml "<a xmlns='u' id='1'/>") = none ↔
            (Validator.schema schema).check (.xml "<a id='1' xmlns='u'/>") = none)) := by
  have ha : canonical false "<a xmlns='u' id='1'/>" = .ok "<a id=\"1\" xmlns=\"u\"></a>" :=
    Result.toOption_eq_some_iff.mp (by decide +kernel)
  have hb : canonical false "<a id='1' xmlns='u'/>" = .ok "<a id=\"1\" xmlns=\"u\"></a>" :=
    Result.toOption_eq_some_iff.mp (by decide +kernel)
  exact ⟨ha, hb, verdicts_agree_iff ha hb⟩

/-- With two locations the order of the attributes decides. -/
theorem order_decides_verdict : ¬ ∀ a b c schema : String, canonical false a = .ok c →
    canonical false b = .ok c → ((Validator.schema schema).check (.xml a) = none ↔
      (Validator.schema schema).check (.xml b) = none) := by
  intro h
  have ha : (canonical false "<a schemaLocation='s' p:schemaLocation='t'/>").toOption =
      some "<a p:schemaLocation=\"t\" schemaLocation=\"s\"></a>" := by decide +kernel
  have hb : (canonical false "<a p:schemaLocation='t' schemaLocation='s'/>").toOption =
      some "<a p:schemaLocation=\"t\" schemaLocation=\"s\"></a>" := by decide +kernel
  have hsame := h _ _ _ "s" (Result.toOption_eq_some_iff.mp ha) (Result.toOption_eq_some_iff.mp hb)
  exact absurd hsame (by decide +kernel)

end Validator

end CachedRun
