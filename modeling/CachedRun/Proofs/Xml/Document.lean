import CachedRun.Proofs.Xml.Escape
import CachedRun.Proofs.Xml.Markup
import CachedRun.Xml.Canonical

/-!
# Documents — what is written, and what it says

A reader of XML starts from a text, and that a text is a document shows only as it is read. Here it
is the other way round: a `Document` is built by the rules of the grammar, so that nothing else can
be built, and its text is a function of it. So is its tree, which is what the document says once
layout is forgotten: where a tag has blanks, which quotes are used, how a character is spelled, what
is commented and what stands in a section.

The grammar is that of XML 1.0 without entities of a document's own. It is wider where that costs
nothing: it does not ask which characters XML admits, nor that comments hold no two hyphens, nor
where a document type stands. In two places it says more than the grammar of XML does. The angle
brackets of a document type are in pairs, also those that are quoted there, and of the pieces that
make up a run of character data at most one is more than blanks.
-/

set_option autoImplicit false

namespace CachedRun.Xml

/-! ## Names and blanks -/

def isNameStart (c : Char) : Bool :=
  let n := c.toNat
  c == ':' || c == '_' || c.isAlpha || (0xC0 ≤ n && n ≤ 0xD6) || (0xD8 ≤ n && n ≤ 0xF6)
    || (0xF8 ≤ n && n ≤ 0x2FF) || (0x370 ≤ n && n ≤ 0x37D) || (0x37F ≤ n && n ≤ 0x1FFF)
    || (0x200C ≤ n && n ≤ 0x200D) || (0x2070 ≤ n && n ≤ 0x218F) || (0x2C00 ≤ n && n ≤ 0x2FEF)
    || (0x3001 ≤ n && n ≤ 0xD7FF) || (0xF900 ≤ n && n ≤ 0xFDCF) || (0xFDF0 ≤ n && n ≤ 0xFFFD)
    || (0x10000 ≤ n && n ≤ 0xEFFFF)

def isNameChar (c : Char) : Bool :=
  let n := c.toNat
  isNameStart c || c == '-' || c == '.' || c.isDigit || n == 0xB7 || (0x300 ≤ n && n ≤ 0x36F)
    || (0x203F ≤ n && n ≤ 0x2040)

structure Name where
  first : Char
  rest : List Char
  isStart : isNameStart first = true
  isRest : rest.all isNameChar = true

def Name.chars (n : Name) : List Char := n.first :: n.rest

theorem Name.isNameChar_of_mem {n : Name} {c : Char} (h : c ∈ n.chars) : isNameChar c = true := by
  rcases List.mem_cons.mp h with rfl | h
  · simp [isNameChar, n.isStart]
  · exact List.all_eq_true.mp n.isRest c h

/-- A character that no name has is apart from those that names have. -/
theorem ne_of_isNameChar {c d : Char} (hc : isNameChar c = true) (hd : isNameChar d = false) :
    c ≠ d := by
  rintro rfl
  rw [hc] at hd
  cases hd

theorem isNameChar_of_isSpace {c : Char} (h : isSpace c = true) : isNameChar c = false := by
  simp only [isSpace, Bool.or_eq_true, beq_iff_eq] at h
  rcases h with ((rfl | rfl) | rfl) | rfl <;> decide

theorem isSpace_of_isNameChar {c : Char} (h : isNameChar c = true) : isSpace c = false := by
  by_contra hspace
  rw [isNameChar_of_isSpace (Bool.of_not_eq_false hspace)] at h
  cases h

/-- A name, as a list of characters. -/
structure IsName (s : List Char) : Prop where
  ne_nil : s ≠ []
  isNameChar : ∀ c ∈ s, isNameChar c = true

theorem Name.isName (n : Name) : IsName n.chars := ⟨nofun, fun _ => n.isNameChar_of_mem⟩

namespace IsName

variable {s : List Char} (h : IsName s)
include h

theorem not_mem {c : Char} (hc : Xml.isNameChar c = false) : c ∉ s := by
  intro hmem
  exact ne_of_isNameChar (h.isNameChar c hmem) hc rfl

theorem not_isSpace : ∀ c ∈ s, (!isSpace c) = true := by
  intro c hc
  rw [isSpace_of_isNameChar (h.isNameChar c hc), Bool.not_false]

end IsName

/-- The blanks that stand between parts of a tag. -/
structure Blanks where
  chars : List Char
  isBlank : chars.all isSpace = true

theorem Blanks.isSpace_of_mem {b : Blanks} : ∀ c ∈ b.chars, isSpace c = true :=
  List.all_eq_true.mp b.isBlank

/-! ## Tags -/

structure Attribute where
  before : Blanks
  apart : before.chars ≠ []
  name : Name
  left : Blanks
  right : Blanks
  quote : Char
  isQuote : quote = '"' ∨ quote = '\''
  value : List Sign
  unquoted : quote ∉ spelled value

/-- An attribute without the blanks before it. -/
def Attribute.body (a : Attribute) : List Char :=
  a.name.chars ++ (a.left.chars ++
    '=' :: (a.right.chars ++ a.quote :: (spelled a.value ++ [a.quote])))

def Attribute.text (a : Attribute) : List Char := a.before.chars ++ a.body

/-- What stands between `<` and `>` or `/>`. -/
structure StartTag where
  name : Name
  attributes : List Attribute
  distinct : (attributes.map fun a => a.name.chars).Nodup
  after : Blanks

def StartTag.text (tag : StartTag) : List Char :=
  tag.name.chars ++ (tag.attributes.flatMap Attribute.text ++ tag.after.chars)

/-! ## Character data -/

/-- Markup that says nothing. The declaration of a document is an instruction here. -/
inductive Aside
  | comment (body : List Char) (h : ¬ ['-', '-', '>'] <:+: body)
  | instruction (target : Name) (body : List Char) (h : ¬ ['?', '>'] <:+: target.chars ++ body)
  | doctype (body : List Char) (hpaired : Paired body) (hname : body.any (fun c => !isSpace c) = true)

def Aside.text : Aside → List Char
  | .comment body _ => '<' :: '!' :: '-' :: '-' :: (body ++ ['-', '-', '>'])
  | .instruction target body _ => '<' :: '?' :: (target.chars ++ body ++ ['?', '>'])
  | .doctype body _ _ => '<' :: '!' :: ("DOCTYPE".toList ++ body ++ ['>'])

/-- Markup that may stand in a run of character data. -/
inductive Section
  | cdata (chars : List Char) (h : ¬ [']', ']', '>'] <:+: chars)
  | aside (a : Aside)

def Section.text : Section → List Char
  | .cdata chars _ => '<' :: '!' :: ("[CDATA[".toList ++ chars ++ [']', ']', '>'])
  | .aside a => a.text

/-- The character data that a section holds. -/
def Section.chars : Section → List Char
  | .cdata chars _ => chars
  | .aside _ => []

/-- The character data of a run, piece by piece. -/
def pieces (first : List Sign) (more : List (Section × List Sign)) : List (List Char) :=
  first.map Sign.char :: more.flatMap fun m => [m.1.chars, m.2.map Sign.char]

def isSolid (piece : List Char) : Bool := !piece.all Text.isBlank

/-- A run of character data: text, then sections with text behind each. -/
structure Passage where
  first : List Sign
  more : List (Section × List Sign)
  single : ((pieces first more).filter isSolid).length ≤ 1

def Passage.text (p : Passage) : List Char :=
  spelled p.first ++ p.more.flatMap fun m => m.1.text ++ spelled m.2

/-- The characters of a run. -/
def Passage.chars (p : Passage) : List Char := (pieces p.first p.more).flatten

/-! ## Elements -/

/-- What an element holds: character data, and elements with character data behind each. -/
inductive Content
  | last (p : Passage)
  | empty (p : Passage) (tag : StartTag) (rest : Content)
  | full (p : Passage) (tag : StartTag) (children : Content) (after : Blanks) (rest : Content)

def closingText (name : Name) (after : Blanks) : List Char :=
  '<' :: '/' :: (name.chars ++ after.chars ++ ['>'])

def Content.text : Content → List Char
  | .last p => p.text
  | .empty p tag rest => p.text ++ '<' :: (tag.text ++ '/' :: '>' :: rest.text)
  | .full p tag children after rest =>
    p.text ++ '<' :: (tag.text ++ '>' :: (children.text ++ (closingText tag.name after ++ rest.text)))

/-- A document. Its root is empty or has a content, with the blanks of its closing tag. -/
structure Document where
  /-- Whether there is a byte order mark. -/
  mark : Bool
  prolog : Passage
  tag : StartTag
  body : Option (Content × Blanks)
  epilog : Passage
  prologBlank : prolog.chars.all Text.isBlank = true
  epilogBlank : epilog.chars.all Text.isBlank = true

/-- A document is like the content of an element. -/
def Document.content (d : Document) : Content :=
  match d.body with
  | none => .empty d.prolog d.tag (.last d.epilog)
  | some (children, after) => .full d.prolog d.tag children after (.last d.epilog)

def Document.text (d : Document) : String :=
  String.ofList ((if d.mark then ['\uFEFF'] else []) ++ d.content.text)

/-! ## Trees -/

/-- Trees side by side, each with what follows it. What is known of attributes is a parameter. -/
inductive Forest (α : Type) where
  | nil
  | text (content : List Char) (rest : Forest α)
  | element (name : List Char) (attributes : α) (children rest : Forest α)

/-- Attributes in the order of a document. -/
abbrev Attributes : Type := List (List Char × List Char)

/-- The attributes of a tag with the characters of their values. -/
def StartTag.values (numbers : Bool) (tag : StartTag) : Attributes :=
  tag.attributes.map fun a => (a.name.chars, normalized numbers (a.value.map Sign.char))

/-- The text of a run without the blanks at its ends, if anything is left of it. -/
def Passage.forest (numbers : Bool) (p : Passage) (rest : Forest Attributes) : Forest Attributes :=
  match Text.trim p.chars with
  | [] => rest
  | s => .text (normalized numbers s) rest

def Content.forest (numbers : Bool) : Content → Forest Attributes
  | .last p => p.forest numbers .nil
  | .empty p tag rest =>
    p.forest numbers (.element tag.name.chars (tag.values numbers) .nil (rest.forest numbers))
  | .full p tag children _ rest =>
    p.forest numbers (.element tag.name.chars (tag.values numbers) (children.forest numbers)
      (rest.forest numbers))

/-- The root of a document. -/
def Document.forest (numbers : Bool) (d : Document) : Forest Attributes :=
  .element d.tag.name.chars (d.tag.values numbers)
    (match d.body with
      | none => .nil
      | some (children, _) => children.forest numbers)
    .nil

def Forest.map {α β : Type} (f : α → β) : Forest α → Forest β
  | .nil => .nil
  | .text content rest => .text content (rest.map f)
  | .element name attributes children rest =>
    .element name (f attributes) (children.map f) (rest.map f)

/-- Attributes by their names. -/
def byName (attributes : Attributes) (name : List Char) : Option (List Char) :=
  attributes.lookup name

/-- What a document says: its root with all that is in it, where attributes are in no order. -/
def Document.tree (numbers : Bool) (d : Document) : Forest (List Char → Option (List Char)) :=
  (d.forest numbers).map byName

end CachedRun.Xml
