import CachedRun.Proofs.Xml.WrittenTag

/-!
# Rereading — the canonical form of a canonical form

A canonical form is a document, so it has a canonical form of its own. To find it is to go over the
items that were written: what a reader gives is `Coherent`, with every tag as it can be read and
every text trimmed, and each item is read where it was written and nowhere else. So **what is written
comes out of reading as it was exactly if each item does** (`rereads_iff`).

Two things can go wrong. Texts that stood apart, with a comment or the bounds of a section between
them, stand side by side when they are written and are one text to the next reader (`join`), and two
numbers in normal form need not make a third. And the names of tags and attributes can be such that the
lexer loses its way (`TagReadsBack`). Documents of the grammar know neither, and **their canonical form
is its own** (`Document.canonical_canonical`).
-/

set_option autoImplicit false

namespace CachedRun.Xml

variable {numbers : Bool} {p p' : Progress} {name : List Char} {is : List Item} {ts us : List Token}

/-! ## Texts side by side

What is written of two texts is what is written of the two as one, so a reader cannot give them
back apart. What is said of the parts is said of those of `join`. -/

def Item.isText : Item → Bool
  | .text _ => true
  | _ => false

/-- Puts a text before other content. -/
def prependText (content : List Char) : List Item → List Item
  | .text content' :: is => .text (content ++ content') :: is
  | is => .text content :: is

/-- The content with texts that stand side by side made one. -/
def join : List Item → List Item
  | [] => []
  | .text content :: is => prependText content (join is)
  | item :: is => item :: join is

theorem render_prependText (content : List Char) (is : List Item) :
    render (prependText content is) = escape content ++ render is := by
  unfold prependText
  split
  · simp [render, renderItem, escape_append]
  · rfl

/-- To write texts side by side is to write them as one. -/
theorem render_join (is : List Item) : render (join is) = render is := by
  fun_induction join is with
  | case1 => rfl
  | case2 content is ih =>
    rw [render_prependText, ih]
    rfl
  | case3 item is hitem ih =>
    rw [render, List.flatMap_cons, ← render, ih]
    rfl

/-- No two texts stand side by side. -/
def Apart : List Item → Prop
  | [] => True
  | .text _ :: is => (∀ item ∈ is.head?, item.isText = false) ∧ Apart is
  | _ :: is => Apart is

theorem apart_prependText {is : List Item} (content : List Char) (h : Apart is) :
    Apart (prependText content is) := by
  unfold prependText
  split
  · exact h
  · rename_i hne
    refine ⟨?_, h⟩
    cases is with
    | nil => nofun
    | cons item is =>
      rintro _ ⟨⟩
      cases item with
      | text content' => exact absurd rfl (hne content' is)
      | opening | closing => rfl

theorem apart_join (is : List Item) : Apart (join is) := by
  fun_induction join is with
  | case1 => trivial
  | case2 content is ih => exact apart_prependText content ih
  | case3 item is hitem ih =>
    cases item with
    | text content => exact absurd rfl (hitem content)
    | opening | closing => exact ih

/-! ## What a reader gives

This is the invariant of reading: tags that can be read, texts that are trimmed, and closing tags
for what is open. What reads back is then asked of items of this kind only. -/

/-- Content that a reader gives from one state on. -/
inductive Coherent (numbers : Bool) : Progress → List Item → Prop
  | done : Coherent numbers ⟨[], true⟩ []
  | opening {p : Progress} {name : List Char} {attributes : Attributes} {is : List Item}
      (hroot : ¬ (p.opened = [] ∧ p.seenRoot = true)) (htag : IsRead numbers name attributes)
      (h : Coherent numbers ⟨name :: p.opened, true⟩ is) :
      Coherent numbers p (.opening name attributes :: is)
  | closing {name : List Char} {opened : List (List Char)} {seenRoot : Bool} {is : List Item}
      (hname : ∀ c ∈ name, isSpace c = false) (h : Coherent numbers ⟨opened, seenRoot⟩ is) :
      Coherent numbers ⟨name :: opened, seenRoot⟩ (.closing name :: is)
  | text {p : Progress} {content : List Char} {is : List Item} (hopened : p.opened ≠ [])
      (hne : content ≠ []) (htrimmed : Text.Trimmed content) (h : Coherent numbers p is) :
      Coherent numbers p (.text content :: is)

theorem Coherent.textItem {s : List Char} {first : List Item} (h : textItem numbers p s = .ok first)
    (hrest : Coherent numbers p is) : Coherent numbers p (first ++ is) := by
  unfold Xml.textItem at h
  split at h
  · cases h
    exact hrest
  · rename_i htrim
    split at h
    · cases h
    · rename_i hopened
      cases h
      exact .text hopened (normalized_ne_nil htrim) (trimmed_normalized (Text.trimmed_trim s)) hrest

/-- The names of the elements that are open have no blanks. -/
def Unspaced (opened : List (List Char)) : Prop := ∀ name ∈ opened, ∀ c ∈ name, isSpace c = false

theorem Unspaced.closing {opened : List (List Char)} (h : Unspaced (name :: opened)) :
    Unspaced opened := fun other hother => h other (List.mem_cons_of_mem name hother)

theorem Coherent.emptyItems (hroot : ¬ (p.opened = [] ∧ p.seenRoot = true)) {attributes : Attributes}
    (htag : IsRead numbers name attributes) (h : Coherent numbers ⟨p.opened, true⟩ is) :
    Coherent numbers p (.opening name attributes :: .closing name :: is) :=
  .opening hroot htag (.closing htag.unspaced h)

/-- A closing tag closes the innermost element. -/
theorem exists_of_step_closing {first : List Item} {p' : Progress}
    (h : step numbers p (.closing name) = .ok (first, p')) : ∃ opened,
      p = ⟨name :: opened, p.seenRoot⟩ ∧ first = [.closing name] ∧ p' = ⟨opened, p.seenRoot⟩ := by
  obtain ⟨opened, seenRoot⟩ := p
  cases opened with
  | nil => cases h
  | cons expected opened =>
    simp only [step] at h
    split at h
    · rename_i heq
      cases h
      exact ⟨opened, by rw [heq], rfl, rfl⟩
    · cases h

/-- What a step gives goes before what the steps after it give. The names of the elements that are
open are carried along, since a closing tag has to be that of the innermost one. -/
theorem coherent_of_step {token : Token} {first : List Item} {p' : Progress}
    (hfound : token.IsFound) (hopened : Unspaced p.opened)
    (h : step numbers p token = .ok (first, p')) :
    Unspaced p'.opened ∧ ∀ is, Coherent numbers p' is → Coherent numbers p (first ++ is) := by
  -- Each kind of token gives items of its own, which the rule of the same name takes.
  cases token with
  | opening content =>
    obtain ⟨item, hitem, hstep⟩ := Result.bind_eq_ok_iff.mp h
    cases hstep
    obtain ⟨tag, attributes, rfl, hgives, rfl, hroot⟩ := exists_of_openingItem hitem
    rw [tag.tagName_text]
    exact ⟨List.forall_mem_cons.mpr ⟨tag.unspaced, hopened⟩,
      fun is his => .opening hroot (tag.isRead hfound hgives) his⟩
  | empty content =>
    obtain ⟨item, hitem, hstep⟩ := Result.bind_eq_ok_iff.mp h
    cases hstep
    obtain ⟨tag, attributes, rfl, hgives, rfl, hroot⟩ := exists_of_openingItem hitem
    rw [tag.tagName_text]
    exact ⟨hopened, fun is his => .emptyItems hroot (tag.isRead hfound hgives) his⟩
  | closing name =>
    obtain ⟨opened, hp, rfl, rfl⟩ := exists_of_step_closing h
    rw [hp] at hopened ⊢
    exact ⟨hopened.closing, fun is his => .closing (hopened _ (List.mem_cons_self ..)) his⟩
  | text raw =>
    rw [step] at h
    split at h
    · cases h
    · obtain ⟨items, hitems, heq⟩ := Result.map_eq_ok_iff.mp h
      cases heq
      exact ⟨hopened, fun is his => his.textItem hitems⟩
  | cdata raw =>
    obtain ⟨items, hitems, heq⟩ := Result.map_eq_ok_iff.mp h
    cases heq
    exact ⟨hopened, fun is his => his.textItem hitems⟩
  | aside =>
    cases h
    exact ⟨hopened, fun is his => his⟩
  | broken => cases h

theorem eq_of_itemsFrom_nil (h : itemsFrom numbers p [] = .ok is) : p = ⟨[], true⟩ ∧ is = [] := by
  rw [itemsFrom] at h
  split at h
  · cases h
  · rename_i hroot
    split at h
    · cases h
    · rename_i hclosed
      cases h
      obtain ⟨opened, seenRoot⟩ := p
      obtain rfl : opened = [] := not_not.mp hclosed
      obtain rfl : seenRoot = true := by simpa using hroot
      exact ⟨rfl, rfl⟩

theorem coherent_of_itemsFrom (hfound : ∀ token ∈ ts, token.IsFound) (hopened : Unspaced p.opened)
    (h : itemsFrom numbers p ts = .ok is) : Coherent numbers p is := by
  induction ts generalizing p is with
  | nil =>
    obtain ⟨rfl, rfl⟩ := eq_of_itemsFrom_nil h
    exact .done
  | cons token ts ih =>
    rw [List.forall_mem_cons] at hfound
    rw [itemsFrom] at h
    obtain ⟨⟨first, p'⟩, hstep, h⟩ := Result.bind_eq_ok_iff.mp h
    obtain ⟨others, hothers, heq⟩ := Result.bind_eq_ok_iff.mp h
    cases heq
    obtain ⟨hopened', hfirst⟩ := coherent_of_step hfound.1 hopened hstep
    exact hfirst others (ih hfound.2 hopened' hothers)

/-- **What a document gives** is coherent. -/
theorem coherent_items {s : List Char} (h : items numbers s = .ok is) :
    Coherent numbers ⟨[], false⟩ is :=
  coherent_of_itemsFrom (by unfold tokens; exact isFound_of_mem_tokensWithin) nofun h

theorem Coherent.prependText {content : List Char} (hopened : p.opened ≠ []) (hne : content ≠ [])
    (htrimmed : Text.Trimmed content) (h : Coherent numbers p is) :
    Coherent numbers p (prependText content is) := by
  cases h with
  | text hopened' hne' htrimmed' h =>
    have happend := htrimmed.append htrimmed' hne hne' []
    exact .text hopened (List.append_ne_nil_of_left_ne_nil hne _) happend h
  | done => exact absurd rfl hopened
  | opening hroot htag h => exact .text hopened hne htrimmed (.opening hroot htag h)
  | closing hname h => exact .text hopened hne htrimmed (.closing hname h)

/-- Joined texts are trimmed like their parts. -/
theorem Coherent.join (h : Coherent numbers p is) : Coherent numbers p (join is) := by
  induction h with
  | done => exact .done
  | opening hroot htag _ ih => exact .opening hroot htag ih
  | closing hname _ ih => exact .closing hname ih
  | text hopened hne htrimmed _ ih => exact ih.prependText hopened hne htrimmed

/-! ## What a reader gives of what was written

The items are taken one after the other, and each either is given as it was and is of no account
for the rest, or spoils the whole. -/

/-- An item that comes out of reading as it was written. -/
def Item.ReadsBack (numbers : Bool) : Item → Prop
  | .opening name attributes => TagReadsBack name attributes
  | .text content => normalized numbers content = content
  | .closing name => '>' ∉ name

/-- A reader gives what is written like some items. -/
def Rereads (numbers : Bool) (p : Progress) (ts : List Token) (is : List Item) : Prop :=
  ∃ js, itemsFrom numbers p ts = .ok js ∧ render js = render is

theorem itemsFrom_cons {token : Token} {first : List Item} {p' : Progress}
    (h : step numbers p token = .ok (first, p')) (us : List Token) :
    itemsFrom numbers p (token :: us) = (itemsFrom numbers p' us).map (first ++ ·) := by
  have hyields := Yields.cons h .nil us
  rwa [List.append_nil] at hyields

/-- **An item that is given as it was** is of no account. -/
theorem rereads_cons {token : Token} {item : Item} {p' : Progress}
    (h : step numbers p token = .ok ([item], p')) :
    Rereads numbers p (token :: us) (item :: is) ↔ Rereads numbers p' us is := by
  rw [Rereads, itemsFrom_cons h]
  constructor
  · rintro ⟨js, hjs, hrender⟩
    obtain ⟨others, hothers, rfl⟩ := Result.map_eq_ok_iff.mp hjs
    rw [List.singleton_append, render, render, List.flatMap_cons, List.flatMap_cons] at hrender
    exact ⟨others, hothers, List.append_cancel_left hrender⟩
  · rintro ⟨js, hjs, hrender⟩
    refine ⟨item :: js, by rw [hjs]; rfl, ?_⟩
    exact congrArg (renderItem item ++ ·) hrender

/-- What is read of markup begins with its token. -/
theorem exists_step {s : List Char} {js : List Item} (hlexes : Lexes ('<' :: s) ts)
    (h : itemsFrom numbers p ts = .ok js) : ∃ token after us first p' others,
      readMarkup s = some (token, after) ∧ Lexes after us ∧ ts = token :: us ∧
        step numbers p token = .ok (first, p') ∧ itemsFrom numbers p' us = .ok others ∧
          js = first ++ others := by
  cases hread : readMarkup s with
  | none =>
    rw [hlexes.unique (.broken hread)] at h
    cases h
  | some found =>
    obtain ⟨token, after⟩ := found
    obtain ⟨taken, rfl, hlocal⟩ := exists_markup hread
    obtain ⟨us, hus⟩ := exists_lexes after
    obtain rfl := hlexes.unique (hus.markup (hlocal after))
    rw [itemsFrom] at h
    obtain ⟨⟨first, p'⟩, hstep, h⟩ := Result.bind_eq_ok_iff.mp h
    obtain ⟨others, hothers, heq⟩ := Result.bind_eq_ok_iff.mp h
    cases heq
    exact ⟨token, after, us, first, p', others, rfl, hus, rfl, hstep, hothers, rfl⟩

/-! ### Markup -/

/-- A tag gives a tag. -/
theorem step_tagToken {inside : List Char} {first : List Item} {p' : Progress}
    (h : step numbers p (tagToken inside) = .ok (first, p')) :
    ∃ name attributes others, first = .opening name attributes :: others := by
  unfold tagToken at h
  split at h <;>
  · obtain ⟨item, hitem, hstep⟩ := Result.bind_eq_ok_iff.mp h
    cases hstep
    obtain ⟨tag, attributes, -, -, rfl, -⟩ := exists_of_openingItem hitem
    exact ⟨_, _, _, rfl⟩

/-- A closing tag has nothing in its name that is not between its brackets. -/
theorem subset_of_step_closingToken {inside : List Char} {opened : List (List Char)}
    {seenRoot : Bool} {first : List Item} {p' : Progress}
    (h : step numbers ⟨name :: opened, seenRoot⟩ (closingToken inside) = .ok (first, p')) :
    name ⊆ inside := by
  obtain ⟨opened', hp, -, -⟩ := exists_of_step_closing h
  obtain ⟨rfl, -⟩ := List.cons.inj (Progress.mk.inj hp).1
  split
  · exact List.Subset.refl inside
  · obtain ⟨post, hpost, -⟩ := Text.exists_dropEndWhile isSpace inside
    exact List.IsPrefix.subset ⟨post, hpost.symm⟩

/-- A name without blanks is the name of its closing tag. -/
theorem closingToken_of_unspaced (h : ∀ c ∈ name, isSpace c = false) :
    closingToken name = .closing name := by
  rw [closingToken, Text.dropEndWhile_of_none h, ite_self]

theorem render_opening (name : List Char) (attributes : Attributes) (is : List Item) :
    render (.opening name attributes :: is) =
      '<' :: (writtenTag name attributes ++ '>' :: render is) := by
  simp [render, renderItem, writtenTag]

theorem render_closing (name : List Char) (is : List Item) :
    render (.closing name :: is) = '<' :: '/' :: (name ++ '>' :: render is) := by
  simp [render, renderItem]

/-- **A written tag** is given as it was if it reads back. -/
theorem rereads_opening {attributes : Attributes} (htag : IsRead numbers name attributes)
    (hroot : ¬ (p.opened = [] ∧ p.seenRoot = true)) (hus : Lexes (render is) us)
    (hts : Lexes (render (.opening name attributes :: is)) ts) :
    Rereads numbers p ts (.opening name attributes :: is) ↔
      TagReadsBack name attributes ∧ Rereads numbers ⟨name :: p.opened, true⟩ us is := by
  rw [render_opening] at hts
  -- A tag that reads back is one token and its step; any other has no reading that writes it again.
  by_cases hback : TagReadsBack name attributes
  · have hread : readMarkup (writtenTag name attributes ++ ['>'] ++ render is) =
        some (.opening (writtenTag name attributes), render is) := by
      rw [List.append_assoc]
      exact htag.readMarkup_writtenTag hback _
    have hstep : step numbers p (.opening (writtenTag name attributes)) =
        .ok ([.opening name attributes], ⟨name :: p.opened, true⟩) := by
      rw [step, htag.openingItem_writtenTag hroot, htag.tagName_writtenTag]
      rfl
    rw [List.append_cons] at hts
    rw [hts.unique (hus.markup hread), rereads_cons hstep]
    exact (and_iff_right hback).symm
  · refine iff_of_false ?_ fun hall => hback hall.1
    rintro ⟨js, hjs, hrender⟩
    obtain ⟨_, _, _, _, _, _, hread, -, rfl, hstep, -, rfl⟩ := exists_step hts hjs
    rw [render_append, render_opening] at hrender
    exact hback (htag.tagReadsBack hread hstep hrender)

/-- **A written closing tag** is given as it was if its name does not end it. -/
theorem rereads_closing {opened : List (List Char)} {seenRoot : Bool}
    (hname : ∀ c ∈ name, isSpace c = false) (hus : Lexes (render is) us)
    (hts : Lexes (render (.closing name :: is)) ts) :
    Rereads numbers ⟨name :: opened, seenRoot⟩ ts (.closing name :: is) ↔
      '>' ∉ name ∧ Rereads numbers ⟨opened, seenRoot⟩ us is := by
  rw [render_closing] at hts
  -- A name with an end of tag in it is cut short there, so it is never written again in full.
  by_cases hend : '>' ∈ name
  · refine iff_of_false ?_ fun hall => hall.1 hend
    rintro ⟨js, hjs, -⟩
    obtain ⟨_, _, _, _, _, _, hread, -, rfl, hstep, -, rfl⟩ := exists_step hts hjs
    rw [readMarkup_closing] at hread
    obtain ⟨⟨inside, after⟩, huntil, heq⟩ := Option.map_eq_some_iff.mp hread
    cases heq
    exact not_mem_of_readUntil huntil (subset_of_step_closingToken hstep hend)
  · have hread : readMarkup ('/' :: (name ++ ['>']) ++ render is) =
        some (.closing name, render is) := by
      rw [List.cons_append, List.append_assoc, List.singleton_append, readMarkup_closing,
        readUntil_char hend, ← closingToken_of_unspaced hname]
      rfl
    rw [List.append_cons, ← List.cons_append] at hts
    rw [hts.unique (hus.markup hread), rereads_cons step_closing]
    exact (and_iff_right hend).symm

/-! ### Texts -/

theorem opens_render (h : ∀ item ∈ is.head?, item.isText = false) : Opens (render is) := by
  cases is with
  | nil => exact .nil
  | cons item is =>
    cases item with
    | text => nomatch h _ rfl
    | opening | closing => exact .cons

/-- Markup that was written gives no text. -/
theorem opens_of_itemsFrom {p' : Progress} {js : List Item} (h : Coherent numbers p is)
    (hmarkup : ∀ item ∈ is.head?, item.isText = false) (hlexes : Lexes (render is) ts)
    (hjs : itemsFrom numbers p' ts = .ok js) : Opens (render js) := by
  -- What comes next is the end or markup, and what is read of markup is no text.
  cases h with
  | done =>
    obtain rfl := hlexes.unique .nil
    rw [(eq_of_itemsFrom_nil hjs).2]
    exact .nil
  | text => nomatch hmarkup _ rfl
  | opening hroot htag h =>
    rw [render_opening] at hlexes
    obtain ⟨_, _, us, first, _, others, hread, -, rfl, hstep, -, rfl⟩ := exists_step hlexes hjs
    rw [readMarkup_tag (htag.head_writtenTag _)] at hread
    obtain ⟨⟨inside, after⟩, -, heq⟩ := Option.map_eq_some_iff.mp hread
    cases heq
    obtain ⟨name, attributes, more, rfl⟩ := step_tagToken hstep
    exact .cons
  | closing hname h =>
    rw [render_closing] at hlexes
    obtain ⟨_, _, us, first, _, others, hread, -, rfl, hstep, -, rfl⟩ := exists_step hlexes hjs
    rw [readMarkup_closing] at hread
    obtain ⟨⟨inside, after⟩, -, heq⟩ := Option.map_eq_some_iff.mp hread
    cases heq
    obtain ⟨opened, -, rfl, -⟩ := exists_of_step_closing hstep
    exact .cons

/-- **A written text** is given as it was if it is in normal form, up to the markup behind it. -/
theorem rereads_text {content : List Char} (hopened : p.opened ≠ []) (hne : content ≠ [])
    (htrimmed : Text.Trimmed content) (h : Coherent numbers p is)
    (hmarkup : ∀ item ∈ is.head?, item.isText = false) (hus : Lexes (render is) us)
    (hts : Lexes (render (.text content :: is)) ts) :
    Rereads numbers p ts (.text content :: is) ↔
      normalized numbers content = content ∧ Rereads numbers p us is := by
  have hopens := opens_render hmarkup
  have hraw : '<' ∉ escape content := by
    rw [escape_eq_spelled]
    exact not_mem_spelled
  have htokens : ts = textTokens (escape content) ++ us := hts.unique (hus.text hraw hopens)
  have hitems : textItems numbers content = [.text (normalized numbers content)] := by
    rw [textItems, htrimmed.trim_eq]
    cases content with
    | nil => exact absurd rfl hne
    | cons c content => rfl
  have hyields : Yields numbers p (textTokens (escape content)) (textItems numbers content) p :=
    yields_text (unescape_escape content) fun hroot => absurd hroot hopened
  -- The step back gives the text in normal form, so both writings part where the markup begins.
  rw [htokens, Rereads, hyields, hitems]
  constructor
  · rintro ⟨js, hjs, hrender⟩
    obtain ⟨others, hothers, rfl⟩ := Result.map_eq_ok_iff.mp hjs
    obtain ⟨hnormal, hrest⟩ :=
      escape_append_inj (opens_of_itemsFrom h hmarkup hus hothers) hopens hrender
    exact ⟨hnormal, others, hothers, hrest⟩
  · rintro ⟨hnormal, js, hjs, hrender⟩
    refine ⟨.text content :: js, by rw [hjs, hnormal]; rfl, ?_⟩
    exact congrArg (escape content ++ ·) hrender

/-! ## The canonical form of a canonical form -/

/-- **What is written comes out of reading as it was exactly if every part of it does.** -/
theorem rereads_iff (h : Coherent numbers p is) (hapart : Apart is) (hts : Lexes (render is) ts) :
    Rereads numbers p ts is ↔ ∀ item ∈ is, item.ReadsBack numbers := by
  induction h generalizing ts with
  | done =>
    obtain rfl := hts.unique .nil
    exact iff_of_true ⟨[], rfl, rfl⟩ nofun
  | @opening p name attributes is hroot htag h ih =>
    obtain ⟨us, hus⟩ := exists_lexes (render is)
    rw [List.forall_mem_cons, ← ih hapart hus, rereads_opening htag hroot hus hts]
    rfl
  | @closing name opened seenRoot is hname h ih =>
    obtain ⟨us, hus⟩ := exists_lexes (render is)
    rw [List.forall_mem_cons, ← ih hapart hus, rereads_closing hname hus hts]
    rfl
  | @text p content is hopened hne htrimmed h ih =>
    obtain ⟨us, hus⟩ := exists_lexes (render is)
    rw [List.forall_mem_cons, ← ih hapart.2 hus,
      rereads_text hopened hne htrimmed h hapart.1 hus hts]
    rfl

/-- A document begins with the tag of its root. -/
theorem head?_render (h : Coherent numbers ⟨[], false⟩ is) : (render is).head? = some '<' := by
  cases h with
  | opening => rfl
  | text hopened => exact absurd rfl hopened

/-- What is written of a document that has been read is read back exactly if every part is. -/
theorem canonical_render_iff {s : List Char} (h : items numbers s = .ok is) :
    canonical numbers (String.ofList (render is)) = .ok (String.ofList (render is)) ↔
      ∀ item ∈ join is, item.ReadsBack numbers := by
  have hcoherent := (coherent_items h).join
  obtain ⟨ts, hts⟩ := exists_lexes (render (join is))
  have hmark : (render (join is)).head? ≠ some '\uFEFF' := by
    rw [head?_render hcoherent]
    decide
  rw [← rereads_iff hcoherent (apart_join is) hts, Rereads, ← hts.tokens hmark, canonical,
    canonicalChars, ← render_join is, String.toList_ofList, items]
  constructor
  · intro hsame
    obtain ⟨chars, hchars, heq⟩ := Result.map_eq_ok_iff.mp hsame
    obtain ⟨js, hjs, rfl⟩ := Result.map_eq_ok_iff.mp hchars
    exact ⟨js, hjs, String.ofList_inj.mp heq⟩
  · rintro ⟨js, hjs, hrender⟩
    rw [hjs, ← hrender]
    rfl

/-- **A canonical form is its own canonical form exactly if each of its parts reads back**: tags end
where they are read to end, and texts are in normal form once they are joined. They are joined
because no comment is left between them when the form is read again. -/
theorem canonical_eq_self_iff {t c : String} (h : canonical numbers t = .ok c) :
    ∃ is, items numbers t.toList = .ok is ∧
      (canonical numbers c = .ok c ↔ ∀ item ∈ join is, item.ReadsBack numbers) := by
  obtain ⟨chars, hchars, rfl⟩ := Result.map_eq_ok_iff.mp h
  obtain ⟨is, his, rfl⟩ := Result.map_eq_ok_iff.mp hchars
  exact ⟨is, his, canonical_render_iff his⟩

/-! ### Pieces of a number -/

theorem canonical_eq_self_iff_pieces : canonical true "<a>8.5<!-- -->0</a>" = .ok "<a>8.50</a>" ∧
    ∃ is, items true "<a>8.5<!-- -->0</a>".toList = .ok is ∧
      (canonical true "<a>8.50</a>" = .ok "<a>8.50</a>" ↔ ∀ item ∈ join is, item.ReadsBack true) := by
  have h : canonical true "<a>8.5<!-- -->0</a>" = .ok "<a>8.50</a>" :=
    Result.toOption_eq_some_iff.mp (by decide +kernel)
  exact ⟨h, canonical_eq_self_iff h⟩

/-- Pieces that are numbers in normal form may be none once they are joined. -/
theorem joined_pieces_change : ¬ ∀ (numbers : Bool) (t c : String),
    canonical numbers t = .ok c → canonical numbers c = .ok c := by
  intro h
  have hpieces : (canonical true "<a>8.5<!-- -->0</a>").toOption = some "<a>8.50</a>" := by
    decide +kernel
  have hnumber : (canonical true "<a>8.50</a>").toOption = some "<a>8.5</a>" := by decide +kernel
  have hsame := h true _ _ (Result.toOption_eq_some_iff.mp hpieces)
  rw [hsame] at hnumber
  exact absurd (Option.some.inj hnumber) (by decide)

-- The slash of a name is that of an empty element to the next reader.
example : (canonical false "<a//>").toOption = some "<a/></a/>" ∧
    (canonical false "<a/></a/>").toOption = none := by decide +kernel

/-! ## Documents of the grammar -/

theorem join_of_apart (h : Apart is) : join is = is := by
  induction is with
  | nil => rfl
  | cons item is ih =>
    cases item with
    | opening | closing => exact congrArg _ (ih h)
    | text content =>
      rw [join, ih h.2, prependText]
      rintro content' is' rfl
      cases h.1 _ rfl

theorem Forest.apart_items {f : Forest Attributes} (hf : f.Proper) (h : Apart is)
    (hmarkup : ∀ item ∈ is.head?, item.isText = false) : Apart (f.items ++ is) := by
  induction f generalizing is with
  | nil => exact h
  | text content rest ih =>
    refine ⟨?_, ih hf.2.2 h hmarkup⟩
    cases rest with
    | nil => exact hmarkup
    | text => exact absurd rfl hf.2.1
    | element =>
      rintro _ ⟨⟩
      rfl
  | element name attributes children rest ihChildren ih =>
    rw [items, List.cons_append, List.append_assoc, List.cons_append]
    exact ihChildren hf.2.1 (ih hf.2.2 h hmarkup) (by rintro _ ⟨⟩; rfl)

/-- **A tag with names of the grammar** reads back. -/
theorem IsTag.tagReadsBack {attributes : Attributes} (h : IsTag name attributes) :
    TagReadsBack name attributes := by
  have hattribute : ∀ a ∈ attributes, Passes (renderAttribute a) := by
    intro a ha
    have hblank : Passes [' '] := .char (by decide) (by decide) (by decide)
    have hsign : Passes ['='] := .char (by decide) (by decide) (by decide)
    exact hblank.append <| (h.names a ha).passes.append <| hsign.append <|
      .quoted (.inl rfl) not_mem_escape.2
  refine ⟨readTag_append (h.name.passes.append (.flatMap hattribute)) [], ?_⟩
  rintro ⟨before, hbefore⟩
  have hlast : (writtenTag name attributes).getLast? = some '/' := by
    rw [← hbefore, List.getLast?_concat]
  rw [writtenTag, List.getLast?_append, Option.or_eq_some_iff, List.getLast?_flatMap] at hlast
  rcases hlast with hattributes | ⟨-, hname⟩
  · obtain ⟨⟨name, value⟩, -, ha⟩ := List.exists_of_findSome?_eq_some hattributes
    have hquote : (renderAttribute (name, value)).getLast? = some '"' := by
      simp [renderAttribute, List.getLast?_append, List.getLast?_cons]
    rw [hquote] at ha
    cases ha
  · exact h.name.not_mem (by decide) (List.mem_of_getLast? hname)

theorem readsBack_textItems (s : List Char) :
    ∀ item ∈ textItems numbers s, item.ReadsBack numbers := by
  unfold textItems
  split
  · nofun
  · exact List.forall_mem_singleton.mpr normalized_normalized

theorem StartTag.tagReadsBack (numbers : Bool) (tag : StartTag) :
    TagReadsBack tag.name.chars (sortAttributes (tag.values numbers)) :=
  (tag.isTag numbers).sorted.tagReadsBack

theorem Content.readsBack (content : Content) :
    ∀ item ∈ ((content.forest numbers).map sortAttributes).items, item.ReadsBack numbers := by
  induction content with
  | last q =>
    rw [Content.forest, q.items_forest, List.forall_mem_append]
    exact ⟨readsBack_textItems _, List.forall_mem_nil _⟩
  | empty q tag rest ih =>
    rw [Content.forest, q.items_forest, List.forall_mem_append]
    refine ⟨readsBack_textItems _, ?_⟩
    rw [Forest.map, Forest.items, List.forall_mem_cons, List.forall_mem_append, List.forall_mem_cons]
    exact ⟨tag.tagReadsBack numbers, List.forall_mem_nil _, tag.name.isName.not_mem (by decide), ih⟩
  | full q tag children after rest ihChildren ih =>
    rw [Content.forest, q.items_forest, List.forall_mem_append]
    refine ⟨readsBack_textItems _, ?_⟩
    rw [Forest.map, Forest.items, List.forall_mem_cons, List.forall_mem_append, List.forall_mem_cons]
    exact ⟨tag.tagReadsBack numbers, ihChildren, tag.name.isName.not_mem (by decide), ih⟩

theorem Document.readsBack (d : Document) :
    ∀ item ∈ ((d.forest numbers).map sortAttributes).items, item.ReadsBack numbers := by
  rw [Document.forest, Forest.map, Forest.items, List.forall_mem_cons, List.forall_mem_append,
    List.forall_mem_cons]
  refine ⟨d.tag.tagReadsBack numbers, ?_, d.tag.name.isName.not_mem (by decide),
    List.forall_mem_nil _⟩
  cases d.body with
  | none => exact List.forall_mem_nil _
  | some body => exact body.1.readsBack

/-- **The canonical form of a document of the grammar** is its own canonical form. -/
theorem Document.canonical_canonical (numbers : Bool) (d : Document) :
    ∃ c, canonical numbers d.text = .ok c ∧ canonical numbers c = .ok c := by
  have hitems : items numbers d.text.toList = _ := d.items_text
  have hapart := @Forest.apart_items [] _ (d.proper_forest numbers).sorted trivial nofun
  rw [List.append_nil] at hapart
  refine ⟨_, by rw [canonical, canonicalChars, hitems]; rfl, (canonical_render_iff hitems).mpr ?_⟩
  rw [join_of_apart hapart]
  exact d.readsBack

end CachedRun.Xml
