import CachedRun.Text.Blank

/-!
# XML tokens

A document is read by a forgiving, non-validating lexer: it finds where each piece of markup ends
and does not look at the names in it. What the pieces hold is kept as written; attributes and
character references are looked at only by a reader that needs them.

Comments, processing instructions, the declaration and the document type are all the same to every
reader of this library, so they share the token `aside`. Where no piece of markup can be found, the
lexer puts `broken` and stops: a reader that gets there fails, and one that has finished before does
not care.
-/

set_option autoImplicit false

namespace CachedRun.Xml

/-- A piece of a document. -/
inductive Token where
  /-- What stands between `<` and `>` of an opening tag. -/
  | opening (content : List Char)
  /-- What stands between `<` and `/>` of an empty element. -/
  | empty (content : List Char)
  /-- What stands between `</` and `>`, without blanks at the end. -/
  | closing (name : List Char)
  /-- Character data with its references. -/
  | text (raw : List Char)
  /-- Character data without references. -/
  | cdata (raw : List Char)
  | aside
  | broken
  deriving Repr, DecidableEq

/-- The four characters that XML takes for blanks. -/
def isSpace (c : Char) : Bool := c == ' ' || c == '\t' || c == '\n' || c == '\r'

def trimSpace (s : List Char) : List Char := Text.dropEndWhile isSpace (s.dropWhile isSpace)

/-- Reads up to a mark, which is taken off; `none` if the mark is missing. -/
def readUntil (mark : List Char) : List Char → Option (List Char × List Char)
  | [] => if mark = [] then some ([], []) else none
  | c :: rest =>
    match Text.dropStart? mark (c :: rest) with
    | some after => some ([], after)
    | none => (readUntil mark rest).map fun (inside, after) => (c :: inside, after)

/-- Reads the content of a tag up to the `>` that stands outside of quotes. The first argument is
the quote that is open. -/
def readTag : Option Char → List Char → Option (List Char × List Char)
  | _, [] => none
  | quote, c :: rest =>
    let next := match quote with
      | none => if c = '"' ∨ c = '\'' then some c else none
      | some q => if c = q then none else some q
    if quote = none ∧ c = '>' then some ([], rest)
    else (readTag next rest).map fun (inside, after) => (c :: inside, after)

/-- Reads the inside of a document type up to its `>`; the number counts the `<` that are open. -/
def readDoctype : Nat → List Char → Option (List Char × List Char)
  | _, [] => none
  | depth, c :: rest =>
    if c = '>' then
      match depth with
      | 0 => some ([], rest)
      | d + 1 => (readDoctype d rest).map fun (inside, after) => (c :: inside, after)
    else
      (readDoctype (if c = '<' then depth + 1 else depth) rest).map
        fun (inside, after) => (c :: inside, after)

/-- Markup that begins with `<!`, given what follows these two characters: a comment, a section of
character data, or a document type, whose name may be written in any case and must be followed by
something. -/
def readDeclaration (s : List Char) : Option (Token × List Char) :=
  match s with
  | '-' :: '-' :: rest => (readUntil ['-', '-', '>'] rest).map fun (_, after) => (.aside, after)
  | '[' :: _ => do
    let body ← Text.dropStart? "[CDATA[".toList s
    let (inside, after) ← readUntil [']', ']', '>'] body
    return (.cdata inside, after)
  | c :: _ =>
    if c = 'D' ∨ c = 'd' then do
      let (inside, after) ← readDoctype 0 s
      if (inside.take 7).map Char.toUpper = "DOCTYPE".toList
          ∧ (inside.drop 7).any (fun c => !isSpace c) then
        some (.aside, after)
      else none
    else none
  | [] => none

/-- Markup, given what follows its `<`. An instruction ends at the first `?>`, and its own `?` does
not count. -/
def readMarkup (s : List Char) : Option (Token × List Char) :=
  match s with
  | '!' :: rest => readDeclaration rest
  | '?' :: '>' :: _ => none
  | '?' :: rest => (readUntil ['?', '>'] rest).map fun (_, after) => (.aside, after)
  | '/' :: rest => (readUntil ['>'] rest).map fun (inside, after) =>
      let name := Text.dropEndWhile isSpace inside
      (.closing (if name = [] then inside else name), after)
  | s => (readTag none s).map fun (inside, after) =>
      match Text.dropEnding? ['/'] inside with
      | some content => (.empty content, after)
      | none => (.opening inside, after)

/-- The tokens of a document of at most as many tokens as the number says. Character data that is
blank is no token. -/
def tokensWithin : Nat → List Char → List Token
  | _, [] => []
  | 0, _ => [.broken]
  | fuel + 1, '<' :: rest =>
    match readMarkup rest with
    | some (token, after) => token :: tokensWithin fuel after
    | none => [.broken]
  | fuel + 1, s =>
    let raw := trimSpace (s.takeWhile (· ≠ '<'))
    let after := tokensWithin fuel (s.dropWhile (· ≠ '<'))
    if raw = [] then after else .text raw :: after

/-- The tokens of a document, without a byte order mark at its start. -/
def tokens (s : List Char) : List Token :=
  let s := match s with
    | '\uFEFF' :: rest => rest
    | s => s
  tokensWithin s.length s

end CachedRun.Xml
