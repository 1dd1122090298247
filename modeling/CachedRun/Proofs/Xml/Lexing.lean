import CachedRun.Proofs.Xml.Document

/-!
# Lexing — the tokens of a document

The lexer looks for no more than the ends of markup, so every token of a document is found where its
text ends, whatever follows. `Lexes` says so of a text that stands before another, and since the
lexer counts the tokens that it may still read, it says so for every count that is large enough.

A text and the tokens of its parts go side by side: one lemma for each piece of markup, one for
character data, and by induction on the content of an element **the tokens of a document are those of
its content** (`Document.tokens_text`).
-/

set_option autoImplicit false

namespace CachedRun.Xml

variable {rest : List Char} {ts : List Token}

/-- A text is read as some tokens. -/
def Lexes (s : List Char) (ts : List Token) : Prop := ∀ n, s.length ≤ n → tokensWithin n s = ts

/-- What may stand behind character data. -/
def Opens (s : List Char) : Prop := ∀ c ∈ s.head?, c = '<'

theorem Opens.nil : Opens [] := nofun

theorem Opens.cons : Opens ('<' :: rest) := by
  rintro _ ⟨⟩
  rfl

theorem Opens.stops (h : Opens rest) : ∀ c ∈ rest.head?, decide (c ≠ '<') = false := by
  intro c hc
  simpa using h c hc

namespace Lexes

theorem nil : Lexes [] [] := fun n _ => by cases n <;> rfl

theorem markup {inside : List Char} {token : Token}
    (hread : readMarkup (inside ++ rest) = some (token, rest)) (h : Lexes rest ts) :
    Lexes ('<' :: (inside ++ rest)) (token :: ts) := by
  intro n hn
  rw [List.length_cons, List.length_append] at hn
  cases n with
  | zero => omega
  | succ n =>
    rw [tokensWithin, hread]
    exact congrArg (token :: ·) (h n (by omega))

end Lexes

/-! ## Character data -/

/-- The token of character data, if it is more than blanks. -/
def textTokens (raw : List Char) : List Token :=
  if trimSpace raw = [] then [] else [.text (trimSpace raw)]

theorem Lexes.text {raw : List Char} (hraw : '<' ∉ raw) (hopens : Opens rest) (h : Lexes rest ts) :
    Lexes (raw ++ rest) (textTokens raw ++ ts) := by
  cases raw with
  | nil => exact h
  | cons c raw =>
    intro n hn
    have hrun := Text.forall_ne_of_not_mem hraw
    have htake := Text.takeWhile_append_of_stop hrun hopens.stops
    have hdrop := Text.dropWhile_append_of_stop hrun hopens.stops
    rw [List.length_append, List.length_cons] at hn
    cases n with
    | zero => omega
    | succ n =>
      rw [List.cons_append] at htake hdrop ⊢
      rw [tokensWithin, htake, hdrop, h n (by omega), textTokens]
      · split <;> rfl
      · nofun
      · rintro rest ⟨⟩
        exact hraw (List.mem_cons_self ..)

/-! ## Sections -/

/-- The name of a document type has no brackets. -/
theorem paired_doctype {body : List Char} (h : Paired body) :
    Paired ("DOCTYPE".toList ++ body) :=
  .char (by decide) (by decide) <| .char (by decide) (by decide) <|
    .char (by decide) (by decide) <| .char (by decide) (by decide) <|
    .char (by decide) (by decide) <| .char (by decide) (by decide) <|
    .char (by decide) (by decide) h

theorem readMarkup_comment {body : List Char} (h : ¬ ['-', '-', '>'] <:+: body) :
    readMarkup ('!' :: '-' :: '-' :: (body ++ ['-', '-', '>']) ++ rest) = some (.aside, rest) := by
  have hread := @readUntil_append ['-', '-'] '>' (by decide) body h rest
  simp only [List.cons_append, List.nil_append, List.append_assoc] at hread ⊢
  rw [readMarkup, readDeclaration, hread]
  rfl

theorem readMarkup_instruction {target : Name} {body : List Char}
    (h : ¬ ['?', '>'] <:+: target.chars ++ body) :
    readMarkup ('?' :: (target.chars ++ body ++ ['?', '>']) ++ rest) = some (.aside, rest) := by
  have hread := @readUntil_append ['?'] '>' (by decide) _ h rest
  have hfirst : target.first ≠ '>' :=
    ne_of_isNameChar (target.isNameChar_of_mem (List.mem_cons_self ..)) (by decide)
  simp only [Name.chars, List.cons_append, List.nil_append, List.append_assoc] at hread ⊢
  rw [readMarkup, hread]
  · rfl
  · intro after heq
    exact hfirst (List.cons.inj heq).1

theorem readMarkup_doctype {body : List Char} (hpaired : Paired body)
    (hname : body.any (fun c => !isSpace c) = true) :
    readMarkup ('!' :: ("DOCTYPE".toList ++ body ++ ['>']) ++ rest) = some (.aside, rest) := by
  have hread := readDoctype_paired (paired_doctype hpaired) rest
  have hchars : "DOCTYPE".toList = ['D', 'O', 'C', 'T', 'Y', 'P', 'E'] := rfl
  rw [hchars] at hread ⊢
  simp only [List.cons_append, List.nil_append, List.append_assoc] at hread ⊢
  rw [readMarkup, readDeclaration, if_pos (.inl rfl), hread]
  · exact if_pos ⟨by rw [hchars]; rfl, hname⟩
  · nofun
  · nofun

theorem readMarkup_cdata {chars : List Char} (h : ¬ [']', ']', '>'] <:+: chars) :
    readMarkup ('!' :: ("[CDATA[".toList ++ chars ++ [']', ']', '>']) ++ rest) =
      some (.cdata chars, rest) := by
  have hread := @readUntil_append [']', ']'] '>' (by decide) _ h rest
  have hbody := Text.dropStart?_append "[CDATA[".toList (chars ++ ([']', ']', '>'] ++ rest))
  have hchars : "[CDATA[".toList = ['[', 'C', 'D', 'A', 'T', 'A', '['] := rfl
  rw [hchars] at hbody ⊢
  simp only [List.cons_append, List.nil_append, List.append_assoc] at hread hbody ⊢
  simp only [readMarkup, readDeclaration, hchars, hbody, Option.bind_eq_bind, Option.bind_some, hread]
  rfl

/-- The token of a section. -/
def Section.token : Section → Token
  | .cdata chars _ => .cdata chars
  | .aside _ => .aside

theorem Section.lexes (s : Section) (h : Lexes rest ts) : Lexes (s.text ++ rest) (s.token :: ts) := by
  cases s with
  | cdata chars hmark => exact h.markup (readMarkup_cdata hmark)
  | aside a =>
    cases a with
    | comment body hmark => exact h.markup (readMarkup_comment hmark)
    | instruction target body hmark => exact h.markup (readMarkup_instruction hmark)
    | doctype body hpaired hname => exact h.markup (readMarkup_doctype hpaired hname)

theorem Section.opens (s : Section) : Opens (s.text ++ rest) := by
  cases s with
  | cdata => exact .cons
  | aside a => cases a <;> exact .cons

/-! ## Runs of character data -/

def Passage.tokens (p : Passage) : List Token :=
  textTokens (spelled p.first) ++ p.more.flatMap fun m => m.1.token :: textTokens (spelled m.2)

theorem lexes_run {more : List (Section × List Sign)} (hopens : Opens rest) (h : Lexes rest ts)
    (first : List Sign) :
    Lexes (spelled first ++ (more.flatMap (fun m => m.1.text ++ spelled m.2) ++ rest))
      (textTokens (spelled first) ++
        (more.flatMap (fun m => m.1.token :: textTokens (spelled m.2)) ++ ts)) := by
  induction more generalizing first with
  | nil => exact h.text not_mem_spelled hopens
  | cons m more ih =>
    rw [List.flatMap_cons, List.flatMap_cons, List.append_assoc, List.append_assoc, List.append_assoc,
      List.cons_append]
    exact (m.1.lexes (ih m.2)).text not_mem_spelled m.1.opens

theorem Passage.lexes (p : Passage) (hopens : Opens rest) (h : Lexes rest ts) :
    Lexes (p.text ++ rest) (p.tokens ++ ts) := by
  rw [Passage.text, Passage.tokens, List.append_assoc, List.append_assoc]
  exact lexes_run hopens h p.first

/-! ## Tags -/

theorem Blanks.passes (b : Blanks) : Passes b.chars := by
  refine .of_forall fun c hc => ?_
  have hspace := b.isSpace_of_mem c hc
  refine ⟨?_, ?_, ?_⟩ <;> rintro rfl <;> cases hspace

theorem IsName.passes {s : List Char} (h : IsName s) : Passes s := by
  refine .of_forall fun c hc => ?_
  have hname := h.isNameChar c hc
  exact ⟨ne_of_isNameChar hname (by decide), ne_of_isNameChar hname (by decide),
    ne_of_isNameChar hname (by decide)⟩

theorem Attribute.passes (a : Attribute) : Passes a.text := by
  have hsign : Passes ['='] := .char (by decide) (by decide) (by decide)
  exact a.before.passes.append <| a.name.isName.passes.append <| a.left.passes.append <|
    hsign.append <| a.right.passes.append <| .quoted a.isQuote a.unquoted

theorem StartTag.passes (tag : StartTag) : Passes tag.text :=
  tag.name.isName.passes.append <| (Passes.flatMap fun a _ => a.passes).append tag.after.passes

theorem Attribute.getLast?_text (a : Attribute) : a.text.getLast? = some a.quote := by
  rw [Attribute.text, Attribute.body, ← List.cons_append, ← List.append_assoc, ← List.cons_append,
    ← List.append_assoc, ← List.append_assoc, ← List.append_assoc, List.getLast?_concat]

/-- A tag does not end like an empty element. -/
theorem StartTag.not_slash_suffix (tag : StartTag) : ¬ ['/'] <:+ tag.text := by
  rintro ⟨before, hbefore⟩
  have hlast : tag.text.getLast? = some '/' := by rw [← hbefore, List.getLast?_concat]
  rw [StartTag.text, List.getLast?_append, List.getLast?_append, Option.or_eq_some_iff,
    Option.or_eq_some_iff] at hlast
  rcases hlast with (hafter | ⟨-, hattributes⟩) | ⟨-, hname⟩
  · exact absurd (tag.after.isSpace_of_mem _ (List.mem_of_getLast? hafter)) (by decide)
  · rw [List.getLast?_flatMap] at hattributes
    obtain ⟨a, -, ha⟩ := List.exists_of_findSome?_eq_some hattributes
    rw [a.getLast?_text, Option.some.injEq] at ha
    rcases a.isQuote with h | h <;> exact absurd (ha.symm.trans h) (by decide)
  · exact tag.name.isName.not_mem (by decide) (List.mem_of_getLast? hname)

/-- The token of a tag that is no closing tag. -/
def tagToken (inside : List Char) : Token :=
  match Text.dropEnding? ['/'] inside with
  | some content => .empty content
  | none => .opening inside

/-- A tag begins like no other markup. -/
theorem readMarkup_tag {s : List Char} (h : ∀ c ∈ s.head?, c ≠ '!' ∧ c ≠ '?' ∧ c ≠ '/') :
    readMarkup s = (readTag none s).map fun (inside, after) => (tagToken inside, after) := by
  rw [readMarkup]
  · congr 1
    funext ⟨inside, after⟩
    simp only [tagToken]
    cases Text.dropEnding? ['/'] inside <;> rfl
  · rintro _ rfl
    exact (h _ rfl).1 rfl
  · rintro _ rfl
    exact (h _ rfl).2.1 rfl
  · rintro _ rfl
    exact (h _ rfl).2.1 rfl
  · rintro _ rfl
    exact (h _ rfl).2.2 rfl

/-- The name of a tag keeps it apart from other markup. -/
theorem StartTag.readMarkup_text (tag : StartTag) : readMarkup (tag.text ++ rest) =
    (readTag none (tag.text ++ rest)).map fun (inside, after) => (tagToken inside, after) := by
  refine readMarkup_tag ?_
  rintro _ ⟨⟩
  have hfirst := tag.name.isNameChar_of_mem (List.mem_cons_self ..)
  exact ⟨ne_of_isNameChar hfirst (by decide), ne_of_isNameChar hfirst (by decide),
    ne_of_isNameChar hfirst (by decide)⟩

theorem StartTag.lexes_opening (tag : StartTag) (h : Lexes rest ts) :
    Lexes ('<' :: (tag.text ++ '>' :: rest)) (.opening tag.text :: ts) := by
  have htoken : tagToken tag.text = .opening tag.text := by
    rw [tagToken, Text.dropEnding?_eq_none tag.not_slash_suffix]
  rw [List.append_cons]
  refine h.markup ?_
  rw [List.append_assoc, List.singleton_append, tag.readMarkup_text, readTag_append tag.passes,
    Option.map_some]
  exact congrArg (fun token => some (token, rest)) htoken

theorem StartTag.lexes_empty (tag : StartTag) (h : Lexes rest ts) :
    Lexes ('<' :: (tag.text ++ '/' :: '>' :: rest)) (.empty tag.text :: ts) := by
  have htoken : tagToken (tag.text ++ ['/']) = .empty tag.text := by
    rw [tagToken, Text.dropEnding?_append]
  have hpasses : Passes (tag.text ++ ['/']) :=
    tag.passes.append (.char (by decide) (by decide) (by decide))
  rw [List.append_cons, List.append_cons]
  refine h.markup ?_
  rw [List.append_assoc, List.singleton_append, List.append_assoc, tag.readMarkup_text,
    ← List.append_assoc, readTag_append hpasses, Option.map_some]
  exact congrArg (fun token => some (token, rest)) htoken

theorem lexes_closing (name : Name) (after : Blanks) (h : Lexes rest ts) :
    Lexes (closingText name after ++ rest) (.closing name.chars :: ts) := by
  refine h.markup ?_
  have hend : '>' ∉ name.chars ++ after.chars := by
    rw [List.mem_append, not_or]
    exact ⟨name.isName.not_mem (by decide), fun hmem =>
      absurd (after.isSpace_of_mem _ hmem) (by decide)⟩
  have hname : Text.dropEndWhile isSpace (name.chars ++ after.chars) = name.chars := by
    rw [Text.dropEndWhile_append after.isBlank, Text.dropEndWhile_of_none]
    exact fun c hc => isSpace_of_isNameChar (name.isNameChar_of_mem hc)
  rw [List.cons_append, List.append_assoc, List.singleton_append, readMarkup, readUntil_char hend]
  simp only [Option.map_some, hname]
  rfl

/-! ## Contents and documents -/

def Content.tokens : Content → List Token
  | .last p => p.tokens
  | .empty p tag rest => p.tokens ++ .empty tag.text :: rest.tokens
  | .full p tag children _ rest =>
    p.tokens ++ .opening tag.text :: (children.tokens ++ .closing tag.name.chars :: rest.tokens)

/-- **A content is read as its tokens**, whatever markup follows. -/
theorem Content.lexes (content : Content) (hopens : Opens rest) (h : Lexes rest ts) :
    Lexes (content.text ++ rest) (content.tokens ++ ts) := by
  induction content generalizing rest ts with
  | last p => exact p.lexes hopens h
  | empty p tag others ih =>
    rw [Content.text, Content.tokens, List.append_assoc, List.append_assoc]
    refine p.lexes .cons ?_
    simpa using tag.lexes_empty (ih hopens h)
  | full p tag children after others ihChildren ih =>
    rw [Content.text, Content.tokens, List.append_assoc, List.append_assoc]
    refine p.lexes .cons ?_
    have hopening : Opens (closingText tag.name after ++ (others.text ++ rest)) := .cons
    have hclosing := lexes_closing tag.name after (ih hopens h)
    simpa using tag.lexes_opening (ihChildren hopening hclosing)

theorem Passage.head?_text (p : Passage) (hopens : Opens rest) {c : Char}
    (h : (p.text ++ rest).head? = some c) : c = '<' ∨ c = '&' ∨ c ∈ p.chars := by
  have hmore : Opens (p.more.flatMap (fun m => m.1.text ++ spelled m.2) ++ rest) := by
    cases p.more with
    | nil => exact hopens
    | cons m more =>
      rw [List.flatMap_cons, List.append_assoc, List.append_assoc]
      exact m.1.opens
  rw [Passage.text, List.append_assoc, List.head?_append, Option.or_eq_some_iff] at h
  rcases h with hfirst | ⟨-, hrest⟩
  · rcases head_spelled hfirst with rfl | hmem
    · exact .inr (.inl rfl)
    · exact .inr (.inr (List.mem_flatten_of_mem (List.mem_cons_self ..) hmem))
  · exact .inl (hmore c hrest)

/-- A byte order mark is no blank, so no prolog begins with one. -/
theorem Document.head?_content (d : Document) : d.content.text.head? ≠ some '\uFEFF' := by
  intro hhead
  have hprolog : '\uFEFF' ∉ d.prolog.chars := by
    intro hmem
    exact absurd (List.all_eq_true.mp d.prologBlank _ hmem) (by decide)
  have hstart : ∃ rest, d.content.text = d.prolog.text ++ '<' :: rest := by
    cases hbody : d.body <;> exact ⟨_, by rw [Document.content, hbody]; rfl⟩
  obtain ⟨rest, hrest⟩ := hstart
  rw [hrest] at hhead
  rcases d.prolog.head?_text .cons hhead with h | h | h
  · cases h
  · cases h
  · exact hprolog h

theorem Lexes.tokens_of_mark {s : List Char} (h : Lexes s ts) : tokens ('\uFEFF' :: s) = ts :=
  h _ (le_refl _)

theorem Lexes.tokens {s : List Char} (h : Lexes s ts) (hmark : s.head? ≠ some '\uFEFF') :
    tokens s = ts := by
  rw [Xml.tokens]
  · exact h _ (le_refl _)
  · rintro rest rfl
    exact hmark rfl

/-- **The tokens of a document** are those of its content. -/
theorem Document.tokens_text (d : Document) : tokens d.text.toList = d.content.tokens := by
  have hlexes := d.content.lexes .nil .nil
  rw [List.append_nil, List.append_nil] at hlexes
  rw [Document.text, String.toList_ofList]
  cases d.mark with
  | true => exact hlexes.tokens_of_mark
  | false => exact hlexes.tokens d.head?_content

end CachedRun.Xml
