import CachedRun.Shell.Word

/-!
# Tokens of a shell script

A part of the stand-in for the programs of a host (`CachedRun/Shell.lean`).

`Token.scan` cuts a script into words, operators and line ends. Each token knows the line that the
reader is on when it has read it, so that a complaint can name a line. A script that ends inside
quotes or brackets ends with a token that says what is missing.

A redirection `<<` takes its input from the script itself: the lines after the line that it stands
on, up to one that holds nothing but the word after it. They take the place of this word. If any of
the word is quoted they stay as they are, and else they are expanded.
-/

set_option autoImplicit false

namespace CachedRun.Shell

/-- What a token is. -/
inductive Symbol where
  | word (w : Word)
  | operator (text : String)
  /-- A redirection operator with the number of the stream before it. -/
  | redirection (stream : Option Nat) (text : String)
  | lineEnd
  | fileEnd
  /-- The script cannot be read any further. -/
  | flaw (missing : String)
  deriving Repr, DecidableEq, Inhabited

/-- A token with the line on which it ends. -/
structure Token where
  symbol : Symbol
  line : Nat
  deriving Repr, DecidableEq, Inhabited

namespace Token

/-- Operators, the longer ones first. -/
def operators : List String := ["&&", "||", ";;", ";", "&", "|", "(", ")"]

def redirections : List String := ["<<-", "<<", ">>", ">&", "<&", ">|", "<>", ">", "<"]

/-- The first text of a list that begins the input. -/
def readOperator? (input : Raw) (texts : List String) : Option (String × Raw) :=
  texts.findSome? fun text =>
    if text.toList.isPrefixOf input then some (text, input.drop text.length) else none

/-! ## Documents in the script -/

/-- The line that ends a document. -/
structure Ending where
  text : Raw
  /-- Whether the document is expanded. -/
  isExpanded : Bool
  /-- Whether tabs at the beginning of its lines are dropped. -/
  dropsTabs : Bool

/-- The text of a word whose quotes are gone. -/
def plainText (w : Word) : Raw :=
  w.flatMap fun
    | .plain text => text
    | .quoted text => text
    | _ => []

def Ending.ofWord (dropsTabs : Bool) (w : Word) : Ending :=
  { text := plainText w
    isExpanded := w.all fun
      | .quoted _ => false
      | _ => true
    dropsTabs }

/-- Reads the lines of a document: its text, what follows it, and the number of its lines. -/
def readLines (ending : Ending) : Nat → Raw → Raw × Raw × Nat
  | 0, s => ([], s, 0)
  | _, [] => ([], [], 0)
  | fuel + 1, s =>
    let line := s.takeWhile (· ≠ '\n')
    let rest := s.drop line.length
    let shown := if ending.dropsTabs then line.dropWhile (· = '\t') else line
    if shown = ending.text then ([], rest.drop 1, 1)
    else
      let (text, after, count) := readLines ending fuel (rest.drop 1)
      (shown ++ rest.take 1 ++ text, after, count + 1)

/-- Reads the documents that begin on a line. -/
def readDocuments : List Ending → Raw → List (Except String Word) × Raw × Nat
  | [], s => ([], s, 0)
  | ending :: endings, s =>
    let (text, rest, count) := readLines ending (s.length + 1) s
    let w := if ending.isExpanded then wordIn .document text else .ok [.quoted text]
    let (ws, rest, more) := readDocuments endings rest
    (w :: ws, rest, count + more)

/-- Puts documents in the place of the words that end them. -/
def placeDocuments : List (Except String Word) → List Token → List Token
  | document :: documents, ⟨.redirection stream "<<", line⟩ :: ⟨.word _, line'⟩ :: rest =>
    let symbol := match document with
      | .ok w => .word w
      | .error missing => .flaw missing
    ⟨.redirection stream "<<", line⟩ :: ⟨symbol, line'⟩ :: placeDocuments documents rest
  | documents, token :: rest => token :: placeDocuments documents rest
  | _, [] => []

/-! ## Scanning -/

/-- The number of line ends that are read to get from one place of a script to another. -/
def linesBetween (before after : Raw) : Nat :=
  (before.take (before.length - after.length)).count '\n'

/-- The tokens of a script from a line on, with the documents in it. The endings are those of the
documents that begin after the line. -/
def scanFrom : Nat → Nat → List Ending → Raw → List Token × List (Except String Word)
  | 0, line, _, _ => ([⟨.fileEnd, line⟩], [])
  | _, line, endings, [] => ([⟨.fileEnd, line⟩], (readDocuments endings []).1)
  | fuel + 1, line, endings, c :: rest =>
    let withToken (symbol : Symbol) (line : Nat)
        (found : List Token × List (Except String Word)) :
        List Token × List (Except String Word) := (⟨symbol, line⟩ :: found.1, found.2)
    /- A word, and what follows it on the same line. -/
    let withWord (s : Raw) (endings : Word → List Ending) :
        List Token × List (Except String Word) :=
      match readWord false (s.length + 1) s with
      | .ok (w, after) =>
        let line := line + linesBetween s after
        withToken (.word w) line (scanFrom fuel line (endings w) after)
      | .error missing => ([⟨.flaw missing, line + s.count '\n'⟩], [])
    if isBlank c then scanFrom fuel line endings rest
    else if c = '\n' then
      let (documents, after, count) := readDocuments endings rest
      let (tokens, more) := scanFrom fuel (line + 1 + count) [] after
      (⟨.lineEnd, line + 1⟩ :: tokens, documents ++ more)
    else if c = '#' then scanFrom fuel line endings (rest.dropWhile (· ≠ '\n'))
    else if c = '\\' ∧ rest.head? = some '\n' then scanFrom fuel (line + 1) endings (rest.drop 1)
    else
      let digits := (c :: rest).takeWhile Char.isDigit
      match readOperator? ((c :: rest).drop digits.length) redirections with
      | some (text, after) =>
        let stream := if digits = [] then none else (String.ofList digits).toNat?
        let operator := if text = "<<-" then "<<" else text
        let s := after.dropWhile isBlank
        withToken (.redirection stream operator) line
          (if operator = "<<" ∧ !s.head?.all endsWord then
            withWord s fun w => endings ++ [.ofWord (text = "<<-") w]
          else scanFrom fuel line endings after)
      | none =>
        match readOperator? (c :: rest) operators with
        | some (text, after) => withToken (.operator text) line (scanFrom fuel line endings after)
        | none => withWord (c :: rest) fun _ => endings

/-- Cuts a script into tokens. -/
def scan (script : Raw) : List Token :=
  let (tokens, documents) := scanFrom (script.length + 1) 1 [] script
  placeDocuments documents tokens

end Token

end CachedRun.Shell
