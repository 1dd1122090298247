import CachedRun.Text.Utf8

/-!
# Words of a shell script

A part of the stand-in for the programs of a host (`CachedRun/Shell.lean`).

A script is a sequence of bytes, and so is everything that it makes: words, file contents and
streams. Bytes are held as the characters with their numbers (`Raw`), so that rules about the shell
can be written with character literals.

A word is a list of pieces: plain and quoted text, and the expansions that the interpreter fills in.
The script of a command substitution and the default of a parameter stay text here and are read when
they are needed. A reader gives what it has read and what follows it, or says what is missing.
-/

set_option autoImplicit false

namespace CachedRun.Shell

/-- Bytes as the characters with their numbers. -/
abbrev Raw := List Char

namespace Raw

def ofBytes (b : Bytes) : Raw := b.map fun byte => Char.ofNat byte.toNat

def toBytes (s : Raw) : Bytes := s.map fun c => UInt8.ofNat c.toNat

def ofText (s : String) : Raw := ofBytes (Text.bytes s)

def toText (s : Raw) : String := Text.decodeLossy (toBytes s)

end Raw

/-- A piece of a word. -/
inductive Piece where
  | plain (text : Raw)
  | quoted (text : Raw)
  /-- A parameter with what follows its name in braces. -/
  | parameter (isQuoted : Bool) (name : Raw) (operation : Raw)
  | substitution (isQuoted : Bool) (script : Raw)
  | arithmetic (isQuoted : Bool) (expression : Raw)
  deriving Repr, DecidableEq, Inhabited

abbrev Word := List Piece

/-! ## What is missing -/

def openQuote : String := "Unterminated quoted string"

def openBackquote : String := "EOF in backquote substitution"

def openBraces : String := "Missing '\x7d'"

def openArithmetic : String := "Missing '))'"

def openParenthesis : String := "end of file unexpected (expecting \")\")"

/-! ## Except String (expansions × Raw) -/

/-- Reads the script between backquotes. -/
def upToBackquote (acc : Raw) : Raw → Option (Raw × Raw)
  | [] => none
  | '\\' :: c :: rest =>
    if c = '\u0060' || c = '\\' || c = '$' then upToBackquote (c :: acc) rest
    else upToBackquote (c :: '\\' :: acc) rest
  | c :: rest =>
    if c = '\u0060' then some (acc.reverse, rest) else upToBackquote (c :: acc) rest

/-- Reads text in single quotes. -/
def upToSingle (acc : Raw) : Raw → Option (Raw × Raw)
  | [] => none
  | c :: rest => if c = '\'' then some (acc.reverse, rest) else upToSingle (c :: acc) rest

/-- Reads up to a closing sign, past everything that quotes and inner brackets enclose. Single
quotes mean nothing inside double ones. The accumulator holds what was read, last first. -/
def enclosed : Nat → Char → Bool → Raw → Raw → Option (Raw × Raw)
  | 0, _, _, _, _ => none
  | _, _, _, _, [] => none
  | fuel + 1, closing, inDouble, acc, c :: rest =>
    let within (opening : Raw) (last : Char) (inDouble' : Bool) (rest : Raw) :
        Option (Raw × Raw) := do
      let (inside, rest) ← enclosed fuel last inDouble' [] rest
      enclosed fuel closing inDouble (last :: inside.reverse ++ (opening.reverse ++ acc)) rest
    if c = closing then some (acc.reverse, rest)
    else match c, rest with
      | '\\', d :: rest => enclosed fuel closing inDouble (d :: c :: acc) rest
      | '"', rest => within ['"'] '"' true rest
      | '\'', rest =>
        if inDouble then enclosed fuel closing inDouble (c :: acc) rest
        else do
          let (inside, rest) ← upToSingle [] rest
          enclosed fuel closing inDouble ('\'' :: inside.reverse ++ c :: acc) rest
      | '$', '(' :: rest => within ['$', '('] ')' false rest
      | '$', '{' :: rest => within ['$', '{'] '}' inDouble rest
      | '(', rest =>
        if closing = ')' then within ['('] ')' inDouble rest
        else enclosed fuel closing inDouble (c :: acc) rest
      | c, rest => enclosed fuel closing inDouble (c :: acc) rest

/-- Reads up to a closing sign. -/
def upTo (closing : Char) (inDouble : Bool) (missing : String) (s : Raw) :
    Except String (Raw × Raw) :=
  match enclosed (s.length + 1) closing inDouble [] s with
  | some result => .ok result
  | none => .error missing

def isNameStart (c : Char) : Bool := c.isAlpha || c = '_'

def isNameChar (c : Char) : Bool := c.isAlphanum || c = '_'

/-- Whether a text can be the name of a variable. -/
def isName (s : Raw) : Bool := s.head?.any isNameStart && s.all isNameChar

/-- The parameters that are named by one sign. -/
def isSpecialName (c : Char) : Bool := c.isDigit || "@*#?$!-".toList.contains c

/-- What stands after a name for the length of its value; no other operation begins with a
letter. -/
def lengthOperation : Raw := "length".toList

/-- The name of a parameter in braces and what follows it. -/
def splitParameter : Raw → Raw × Raw
  | [] => ([], [])
  | c :: rest =>
    if isNameStart c then ((c :: rest).takeWhile isNameChar, (c :: rest).dropWhile isNameChar)
    else if c.isDigit then ((c :: rest).takeWhile Char.isDigit, (c :: rest).dropWhile Char.isDigit)
    else if c = '#' ∧ rest ≠ [] then (rest, lengthOperation)
    else ([c], rest)

/-- Reads the expansion after a dollar sign; a sign that begins none stands for itself. -/
def readDollar (isQuoted : Bool) : Raw → Except String (Piece × Raw)
  | '(' :: '(' :: rest => do
    let (expression, rest) ← upTo ')' false openArithmetic rest
    match rest with
    | ')' :: rest => return (.arithmetic isQuoted expression, rest)
    | _ => throw openArithmetic
  | '(' :: rest => do
    let (script, rest) ← upTo ')' false openParenthesis rest
    return (.substitution isQuoted script, rest)
  | '{' :: rest => do
    let (inside, rest) ← upTo '}' isQuoted (if isQuoted then openQuote else openBraces) rest
    let (name, operation) := splitParameter inside
    return (.parameter isQuoted name operation, rest)
  | c :: rest =>
    if isNameStart c then
      .ok (.parameter isQuoted ((c :: rest).takeWhile isNameChar) [],
        (c :: rest).dropWhile isNameChar)
    else if isSpecialName c then .ok (.parameter isQuoted [c] [], rest)
    else .ok (.quoted ['$'], c :: rest)
  | [] => .ok (.quoted ['$'], [])

/-- Reads a substitution between backquotes. -/
def readBackquoted (isQuoted : Bool) (s : Raw) : Except String (Piece × Raw) :=
  match upToBackquote [] s with
  | some (script, rest) => .ok (.substitution isQuoted script, rest)
  | none => .error openBackquote

/-- Where quoted pieces are read. -/
inductive Surroundings where
  /-- Between double quotes. -/
  | quotes
  /-- In a text in which such quotes mean nothing. -/
  | document
  /-- In braces between double quotes, where such quotes are passed over. -/
  | braces
  deriving DecidableEq

/-- Reads pieces up to a double quote, or to the end of a text. -/
def readDouble (place : Surroundings) : Nat → Raw → Except String (Word × Raw)
  | 0, _ => .error openQuote
  | _, [] => if place = .quotes then .error openQuote else .ok ([], [])
  | fuel + 1, c :: rest => do
    let text (t : Raw) (rest : Raw) : Except String (Word × Raw) := do
      let (w, rest) ← readDouble place fuel rest
      return (.quoted t :: w, rest)
    let andThen (front : Piece × Raw) : Except String (Word × Raw) := do
      let (w, rest) ← readDouble place fuel front.2
      return (front.1 :: w, rest)
    if c = '"' ∧ place ≠ .document then
      if place = .quotes then return ([], rest) else readDouble place fuel rest
    else if c = '\\' then
      match rest with
      | d :: rest' =>
        if d = '\n' then readDouble place fuel rest'
        else if "$\u0060\\".toList.contains d ∨ d = '"' ∧ place ≠ .document then text [d] rest'
        else text ['\\'] rest
      | [] => text ['\\'] []
    else if c = '$' then andThen (← readDollar true rest)
    else if c = '\u0060' then andThen (← readBackquoted true rest)
    else text [c] rest

/-- All of a text as a word of quoted pieces. -/
def wordIn (place : Surroundings) (s : Raw) : Except String Word :=
  (readDouble place (s.length + 1) s).map Prod.fst

/-! ## Words -/

def isBlank (c : Char) : Bool := c = ' ' || c = '\t'

/-- The characters that end a word. -/
def endsWord (c : Char) : Bool := isBlank c || "\n;&|<>()".toList.contains c

/-- Adds plain text in front of a word. -/
def consPlain (c : Char) : Word → Word
  | .plain text :: w => .plain (c :: text) :: w
  | w => .plain [c] :: w

/-- Reads a word, or all of a text as a word. -/
def readWord (isWhole : Bool) : Nat → Raw → Except String (Word × Raw)
  | 0, _ => .error openQuote
  | _, [] => .ok ([], [])
  | fuel + 1, c :: rest => do
    if !isWhole ∧ endsWord c then return ([], c :: rest)
    let (front, rest) ← (match c, rest with
      | '\'', rest =>
        match upToSingle [] rest with
        | some (t, rest) => .ok ([.quoted t], rest)
        | none => .error openQuote
      | '"', rest => do
        let (w, rest) ← readDouble .quotes (rest.length + 1) rest
        return (.quoted [] :: w, rest)
      | '\\', '\n' :: rest => .ok ([], rest)
      | '\\', d :: rest => .ok ([.quoted [d]], rest)
      | '\\', [] => .ok ([.quoted ['\\']], [])
      | '$', rest => do
        let (piece, rest) ← readDollar false rest
        return ([piece], rest)
      | '\u0060', rest => do
        let (piece, rest) ← readBackquoted false rest
        return ([piece], rest)
      | c, rest => .ok ([.plain [c]], rest) : Except String (Word × Raw))
    let (w, rest) ← readWord isWhole fuel rest
    return (match front with
      | [.plain [c]] => consPlain c w
      | front => front ++ w, rest)

/-- All of a text as a word. -/
def wholeWord (s : Raw) : Except String Word := (readWord true (s.length + 1) s).map Prod.fst

end CachedRun.Shell
