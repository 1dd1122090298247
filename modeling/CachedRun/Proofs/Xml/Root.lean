import CachedRun.Proofs.Xml.WrittenTag

/-!
# Roots — the tag that a document begins with

Two readers look at the root of a document. `root` stops at the first tag and takes what it needs in
the order of the document; the canonical form goes on to the end, and its tags have their attributes
in order of their names. What both see of the root is one tag, `IsRoot` (`root_eq_ok_iff`,
`exists_root_of_canonical`).

**Documents with one canonical form have one root but for the order of its attributes**
(`roots_of_canonical_eq`). Nothing more can be had: the order is what a canonical form forgets.
-/

set_option autoImplicit false

namespace CachedRun.Xml

variable {numbers : Bool} {ts : List Token} {content content' document : List Char} {tag tag' : Tag}

/-! ## The first tag -/

/-- What stands between the brackets of the first tag, which has nothing before it but texts and what
is no part of the content. -/
inductive FirstTag : List Token → List Char → Prop
  | opening (content : List Char) (ts : List Token) : FirstTag (.opening content :: ts) content
  | empty (content : List Char) (ts : List Token) : FirstTag (.empty content :: ts) content
  | text {content : List Char} {ts : List Token} (raw : List Char) (h : FirstTag ts content) :
    FirstTag (.text raw :: ts) content
  | cdata {content : List Char} {ts : List Token} (raw : List Char) (h : FirstTag ts content) :
    FirstTag (.cdata raw :: ts) content
  | aside {content : List Char} {ts : List Token} (h : FirstTag ts content) :
    FirstTag (.aside :: ts) content

namespace FirstTag

theorem unique (h : FirstTag ts content) (h' : FirstTag ts content') : content = content' := by
  induction h with
  | opening | empty =>
    cases h'
    rfl
  | text _ _ ih | cdata _ _ ih | aside _ ih =>
    cases h'
    exact ih ‹_›

theorem isFound (h : FirstTag ts content) (hfound : ∀ token ∈ ts, token.IsFound) :
    IsFound content := by
  induction h with
  | opening | empty => exact hfound _ (List.mem_cons_self ..)
  | text _ _ ih | cdata _ _ ih | aside _ ih => exact ih (List.forall_mem_cons.mp hfound).2

end FirstTag

/-- The tag of the root element of a document, which can be read. -/
def IsRoot (document : List Char) (tag : Tag) : Prop :=
  ∃ content, FirstTag (tokens document) content ∧ Tag.read? content = some tag

theorem IsRoot.unique (h : IsRoot document tag) (h' : IsRoot document tag') : tag = tag' := by
  obtain ⟨content, hfirst, hread⟩ := h
  obtain ⟨content', hfirst', hread'⟩ := h'
  rw [hfirst.unique hfirst', hread'] at hread
  exact (Option.some.inj hread).symm

theorem distinct_of_read? (h : Tag.read? content = some tag) :
    (tag.attributes.map Prod.fst).Nodup := by
  obtain ⟨loose, -, -, hgives⟩ := LooseTag.exists_of_read? h
  rw [← map_name_of_gives hgives]
  exact loose.distinct

theorem IsRoot.distinct (h : IsRoot document tag) : (tag.attributes.map Prod.fst).Nodup := by
  obtain ⟨_, -, hread⟩ := h
  exact distinct_of_read? hread

theorem exists_tag_of_rootFrom_opening {root : Root}
    (h : rootFrom (.opening content :: ts) = .ok root) :
    ∃ tag, Tag.read? content = some tag ∧ rootOf tag = root := by
  rw [rootFrom] at h
  split at h
  · rename_i tag hread
    exact ⟨tag, hread, Except.ok.inj h⟩
  · cases h

theorem rootFrom_eq_ok_iff {root : Root} : rootFrom ts = .ok root ↔
    ∃ content tag, FirstTag ts content ∧ Tag.read? content = some tag ∧ rootOf tag = root := by
  constructor
  · intro h
    -- The reader goes past whatever may stand before the first tag, one constructor after the
    -- other.
    induction ts with
    | nil => cases h
    | cons token ts ih =>
      cases token with
      | opening content =>
        obtain ⟨tag, hread, heq⟩ := exists_tag_of_rootFrom_opening h
        exact ⟨content, tag, .opening content ts, hread, heq⟩
      | empty content =>
        have hopening : rootFrom (.opening content :: ts) = .ok root := h
        obtain ⟨tag, hread, heq⟩ := exists_tag_of_rootFrom_opening hopening
        exact ⟨content, tag, .empty content ts, hread, heq⟩
      | text raw =>
        obtain ⟨content, tag, hfirst, hroot⟩ := ih h
        exact ⟨content, tag, .text raw hfirst, hroot⟩
      | cdata raw =>
        obtain ⟨content, tag, hfirst, hroot⟩ := ih h
        exact ⟨content, tag, .cdata raw hfirst, hroot⟩
      | aside =>
        obtain ⟨content, tag, hfirst, hroot⟩ := ih h
        exact ⟨content, tag, .aside hfirst, hroot⟩
      | closing | broken => cases h
  · rintro ⟨content, tag, hfirst, hread, rfl⟩
    induction hfirst with
    | opening | empty => rw [rootFrom, hread]
    | text _ _ ih | cdata _ _ ih | aside _ ih => exact ih hread

/-- **A root is that of the root's tag.** -/
theorem root_eq_ok_iff {document : String} {r : Root} :
    root document = .ok r ↔ ∃ tag, IsRoot document.toList tag ∧ rootOf tag = r := by
  rw [root, rootFrom_eq_ok_iff]
  constructor
  · rintro ⟨content, tag, hfirst, hread, heq⟩
    exact ⟨tag, ⟨content, hfirst, hread⟩, heq⟩
  · rintro ⟨tag, ⟨content, hfirst, hread⟩, heq⟩
    exact ⟨content, tag, hfirst, hread, heq⟩

/-! ## The first tag of a canonical form -/

/-- Outside of the root there is no text. -/
theorem eq_nil_of_textItem {seenRoot : Bool} {s : List Char} {first : List Item}
    (h : textItem numbers ⟨[], seenRoot⟩ s = .ok first) : first = [] := by
  unfold textItem at h
  split at h
  · cases h
    rfl
  · cases h

theorem exists_tag_of_openingItem {p : Progress} {item : Item}
    (h : openingItem numbers p content = .ok item) : ∃ tag, Tag.read? content = some tag ∧
      item = .opening tag.name (writtenAttributes numbers tag.attributes) := by
  obtain ⟨loose, attributes, rfl, hgives, rfl, -⟩ := exists_of_openingItem h
  exact ⟨_, loose.read?_text hgives, rfl⟩

/-- **The content of a document begins with the tag of its root.** What comes before it gives no
items, and no text may stand outside of the root. -/
theorem exists_root_of_itemsFrom {is : List Item}
    (h : itemsFrom numbers ⟨[], false⟩ ts = .ok is) : ∃ content tag is',
      FirstTag ts content ∧ Tag.read? content = some tag ∧
        is = .opening tag.name (writtenAttributes numbers tag.attributes) :: is' := by
  induction ts generalizing is with
  | nil => cases h
  | cons token ts ih =>
    rw [itemsFrom] at h
    obtain ⟨⟨first, p⟩, hstep, h⟩ := Result.bind_eq_ok_iff.mp h
    obtain ⟨others, hothers, heq⟩ := Result.bind_eq_ok_iff.mp h
    cases heq
    -- Before the first tag only blank texts and asides may stand, and these give no items.
    cases token with
    | opening content =>
      obtain ⟨item, hitem, hstep⟩ := Result.bind_eq_ok_iff.mp hstep
      cases hstep
      obtain ⟨tag, hread, rfl⟩ := exists_tag_of_openingItem hitem
      exact ⟨content, tag, others, .opening content ts, hread, rfl⟩
    | empty content =>
      obtain ⟨item, hitem, hstep⟩ := Result.bind_eq_ok_iff.mp hstep
      cases hstep
      obtain ⟨tag, hread, rfl⟩ := exists_tag_of_openingItem hitem
      exact ⟨content, tag, _, .empty content ts, hread, rfl⟩
    | text raw =>
      rw [step] at hstep
      split at hstep
      · cases hstep
      · obtain ⟨items, hitems, heq⟩ := Result.map_eq_ok_iff.mp hstep
        cases heq
        obtain rfl := eq_nil_of_textItem hitems
        obtain ⟨content, tag, is', hfirst, hread, rfl⟩ := ih hothers
        exact ⟨content, tag, is', .text raw hfirst, hread, rfl⟩
    | cdata raw =>
      obtain ⟨items, hitems, heq⟩ := Result.map_eq_ok_iff.mp hstep
      cases heq
      obtain rfl := eq_nil_of_textItem hitems
      obtain ⟨content, tag, is', hfirst, hread, rfl⟩ := ih hothers
      exact ⟨content, tag, is', .cdata raw hfirst, hread, rfl⟩
    | aside =>
      cases hstep
      obtain ⟨content, tag, is', hfirst, hread, rfl⟩ := ih hothers
      exact ⟨content, tag, is', .aside hfirst, hread, rfl⟩
    | closing | broken => cases hstep

theorem isRead_of_read? (hfound : IsFound content) (h : Tag.read? content = some tag) :
    IsRead numbers tag.name (writtenAttributes numbers tag.attributes) := by
  obtain ⟨loose, rfl, hname, hgives⟩ := LooseTag.exists_of_read? h
  exact hname ▸ loose.isRead hfound hgives

/-- **A document that has a canonical form** begins it with the tag of its root. -/
theorem exists_root_of_canonical {c : List Char} (h : canonicalChars numbers document = .ok c) :
    ∃ tag rest, IsRoot document tag ∧
      IsRead numbers tag.name (writtenAttributes numbers tag.attributes) ∧
        c = '<' :: (writtenTag tag.name (writtenAttributes numbers tag.attributes) ++ '>' :: rest) := by
  obtain ⟨is, his, rfl⟩ := Result.map_eq_ok_iff.mp h
  obtain ⟨content, tag, is', hfirst, hread, rfl⟩ := exists_root_of_itemsFrom his
  have hfound : ∀ token ∈ tokens document, token.IsFound := by
    unfold tokens
    exact isFound_of_mem_tokensWithin
  refine ⟨tag, render is', ⟨content, hfirst, hread⟩,
    isRead_of_read? (hfirst.isFound hfound) hread, ?_⟩
  simp [render, renderItem, writtenTag]

/-! ## Documents with one canonical form -/

section Written

variable {name name' s t : List Char} {attributes attributes' : Attributes}

/-- A tag without attributes ends behind its name, whatever follows. -/
theorem IsRead.readTag_of_nil (h : IsRead numbers name []) (rest : List Char) :
    readTag none (name ++ '>' :: rest) = some (name, rest) := by
  obtain ⟨quote, hcrosses, hquote⟩ := h.crossed
  rw [hcrosses, hquote rfl, readTag_cons, if_pos ⟨rfl, rfl⟩]
  simp

/-- What is written without attributes is not written with attributes: the blank before the first of
them would be in the name. -/
theorem IsRead.ne_of_cons {a : List Char × List Char} (h : IsRead numbers name [])
    (h' : IsRead numbers name' (a :: attributes')) :
    writtenTag name [] ++ '>' :: s ≠ writtenTag name' (a :: attributes') ++ '>' :: t := by
  intro heq
  obtain ⟨quote, hcrosses, -⟩ := h'.crossed
  simp only [writtenTag, List.flatMap_nil, List.append_nil, List.flatMap_cons, renderAttribute,
    List.append_assoc, List.cons_append] at heq
  have hread := h.readTag_of_nil s
  rw [heq, hcrosses, readTag_cons, if_neg (by simp)] at hread
  obtain ⟨⟨inside, after⟩, hinside, hname⟩ := Option.map_eq_some_iff.mp hread
  obtain ⟨more, -, hmore⟩ := Option.map_eq_some_iff.mp hinside
  cases hname
  cases hmore
  cases h.unspaced ' ' (by simp)

/-- **A tag can be told from what is written of it.** -/
theorem IsRead.writtenTag_inj (h : IsRead numbers name attributes)
    (h' : IsRead numbers name' attributes')
    (heq : writtenTag name attributes ++ '>' :: s = writtenTag name' attributes' ++ '>' :: t) :
    name = name' ∧ attributes = attributes' := by
  -- Tags without attributes end behind their names; others have a blank there, which no name has.
  cases attributes with
  | nil =>
    cases attributes' with
    | cons a' attributes' => exact absurd heq (h.ne_of_cons h')
    | nil =>
      simp only [writtenTag, List.flatMap_nil, List.append_nil] at heq
      have hread := h.readTag_of_nil s
      rw [heq, h'.readTag_of_nil] at hread
      cases hread
      exact ⟨rfl, rfl⟩
  | cons a attributes =>
    cases attributes' with
    | nil => exact absurd heq.symm (h'.ne_of_cons h)
    | cons a' attributes' =>
      rw [writtenTag, writtenTag, List.append_assoc, List.append_assoc] at heq
      obtain ⟨hname, hattributes⟩ := Text.append_inj_of_stop (p := fun c => !isSpace c)
        (fun c hc => by rw [h.unspaced c hc]; rfl) (by rintro _ ⟨⟩; rfl)
        (fun c hc => by rw [h'.unspaced c hc]; rfl) (by rintro _ ⟨⟩; rfl) heq
      exact ⟨hname, flatMap_renderAttribute_inj h.names h'.names hattributes⟩

end Written

/-- **Documents with one canonical form have one root**, but for the order of its attributes. -/
theorem roots_of_canonical_eq {document' c : List Char}
    (h : canonicalChars false document = .ok c) (h' : canonicalChars false document' = .ok c) :
    ∃ tag tag', IsRoot document tag ∧ IsRoot document' tag' ∧
      tag.name = tag'.name ∧ tag.attributes.Perm tag'.attributes := by
  obtain ⟨tag, rest, hroot, hread, hc⟩ := exists_root_of_canonical h
  obtain ⟨tag', rest', hroot', hread', hc'⟩ := exists_root_of_canonical h'
  rw [hc'] at hc
  obtain ⟨hname, hattributes⟩ := hread.writtenTag_inj hread' (List.cons.inj hc).2.symm
  refine ⟨tag, tag', hroot, hroot', hname, ?_⟩
  have hperm : (writtenAttributes false tag.attributes).Perm _ :=
    writtenAttributes_perm hroot.distinct
  have hperm' : (writtenAttributes false tag'.attributes).Perm _ :=
    writtenAttributes_perm hroot'.distinct
  have hsame := hperm.symm.trans (hattributes ▸ hperm')
  simpa [normalized] using hsame

end CachedRun.Xml
