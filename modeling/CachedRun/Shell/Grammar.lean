import CachedRun.Shell.Command

/-!
# The grammar of scripts

A part of the stand-in for the programs of a host (`CachedRun/Shell.lean`).

A script is read one line at a time, and a line that is read is run before the next one is looked
at. `Grammar.readLine` reads the commands of one line with all that belongs to them on the lines
that follow, or says what was found where something else was expected.

A word counts as a keyword only where a command may begin and if nothing in it is quoted.
-/

set_option autoImplicit false

namespace CachedRun.Shell

/-- Why a line cannot be read. -/
structure GrammarFlaw where
  line : Nat
  text : String
  deriving Repr, DecidableEq

namespace Grammar

def keywords : List String :=
  ["!", "case", "do", "done", "elif", "else", "esac", "fi", "for", "if", "in", "then", "until",
    "while", "\x7b", "\x7d"]

/-- The keyword that a token is, where a command may begin. -/
def keywordOf? : Symbol → Option String
  | .word [.plain text] =>
    let word := String.ofList text
    if keywords.contains word then some word else none
  | _ => none

/-- The next token. -/
def next (ts : List Token) : Token := ts.head?.getD ⟨.fileEnd, 1⟩

/-- What the next token is. -/
def symbol (ts : List Token) : Symbol := (next ts).symbol

def keyword? (ts : List Token) : Option String := keywordOf? (symbol ts)

/-- How a complaint names an operator or a keyword. -/
def named (text : String) : String := "\"" ++ text ++ "\""

/-- How a complaint names a token, which may be a keyword at its place or not. -/
def shown (mayBeKeyword : Bool) (s : Symbol) : String :=
  match s with
  | .word _ => if mayBeKeyword then ((keywordOf? s).map named).getD "word" else "word"
  | .operator text => named text
  | .redirection .. => "redirection"
  | .lineEnd => "newline"
  | .fileEnd => "end of file"
  | .flaw missing => missing

/-- Refuses the next token, where another one may have been expected. -/
def refuse {α : Type} (ts : List Token) (expected : Option String) (mayBeKeyword : Bool) :
    Except GrammarFlaw α :=
  .error {
    line := (next ts).line
    text := match symbol ts, expected with
      | .flaw missing, _ => missing
      | s, some text => s!"{shown mayBeKeyword s} unexpected (expecting {named text})"
      | s, none => s!"{shown mayBeKeyword s} unexpected" }

def unexpected {α : Type} (ts : List Token) : Except GrammarFlaw α := refuse ts none true

def dropLineEnds (ts : List Token) : List Token := ts.dropWhile fun t => t.symbol = .lineEnd

/-- Passes over a keyword that must come next. -/
def expect (keyword : String) (ts : List Token) : Except GrammarFlaw (List Token) :=
  if keyword? ts = some keyword then .ok (ts.drop 1) else refuse ts (some keyword) true

/-- Passes over an operator that must come next. -/
def expectOperator (text : String) (mayBeKeyword : Bool) (ts : List Token) :
    Except GrammarFlaw (List Token) :=
  if symbol ts = .operator text then .ok (ts.drop 1) else refuse ts (some text) mayBeKeyword

/-- Whether a token ends a list of commands. -/
def isTerminator (s : Symbol) : Bool :=
  match s with
  | .fileEnd => true
  | .operator text => text = ")" || text = ";;"
  | s => (keywordOf? s).any
    ["then", "elif", "else", "fi", "do", "done", "esac", "\x7d"].contains

/-! ## Simple commands -/

/-- Splits an assignment at its equals sign. -/
def assignment? : Word → Option (Raw × Word)
  | .plain text :: w =>
    let name := text.takeWhile isNameChar
    match text.dropWhile isNameChar with
    | '=' :: value =>
      if isName name then some (name, if value = [] then w else .plain value :: w) else none
    | _ => none
  | _ => none

/-- Reads the words and redirections of a simple command. -/
def readSimple (line : Nat) (assignments : List (Raw × Word)) (words : List Word)
    (rs : List Redirection) : List Token → Except GrammarFlaw (Command × List Token)
  | ⟨.redirection stream operator, _⟩ :: ⟨.word target, _⟩ :: rest =>
    readSimple line assignments words (⟨stream, operator, target⟩ :: rs) rest
  | ⟨.redirection .., _⟩ :: rest => refuse rest none false
  | ⟨.word w, _⟩ :: rest =>
    match words, assignment? w with
    | [], some a => readSimple line (a :: assignments) words rs rest
    | _, _ => readSimple line assignments (w :: words) rs rest
  | ts => .ok (.simple line assignments.reverse words.reverse rs.reverse, ts)

/-- Reads redirections. -/
def readRedirections (rs : List Redirection) :
    List Token → Except GrammarFlaw (List Redirection × List Token)
  | ⟨.redirection stream operator, _⟩ :: ⟨.word target, _⟩ :: rest =>
    readRedirections (⟨stream, operator, target⟩ :: rs) rest
  | ⟨.redirection .., _⟩ :: rest => refuse rest none false
  | ts => .ok (rs.reverse, ts)

/-- Reads words up to something else. -/
def readWords (acc : List Word) : List Token → List Word × List Token
  | ⟨.word w, _⟩ :: rest => readWords (w :: acc) rest
  | ts => (acc.reverse, ts)

/-- Reads the patterns of an arm with the parenthesis that closes them. -/
def readPatterns (acc : List Word) : List Token → Except GrammarFlaw (List Word × List Token)
  | ⟨.word w, _⟩ :: ⟨.operator "|", _⟩ :: rest => readPatterns (w :: acc) rest
  | ⟨.word w, _⟩ :: rest => do
    return ((w :: acc).reverse, ← expectOperator ")" true rest)
  | ts => refuse ts (some ")") true
termination_by structural ts => ts

/-- The name of a function whose definition begins here, with what follows the parentheses. -/
def readFunctionHead? (ts : List Token) : Option (Except GrammarFlaw (Raw × List Token)) :=
  match ts with
  | ⟨.word w, _⟩ :: ⟨.operator "(", _⟩ :: rest =>
    if (assignment? w).isSome then none
    else some do
      let body ← expectOperator ")" false rest
      match w with
      | [.plain name] =>
        if isName name ∧ !Command.isSpecial name then return (name, body)
        else throw ⟨(next rest).line, "Bad function name"⟩
      | _ => throw ⟨(next rest).line, "Bad function name"⟩
  | _ => none

/-! ## Commands -/

mutual

/-- Reads a list of commands up to a token that ends it. A list at the top ends with its line; one
that may be empty may end at once. -/
def readList : Nat → Bool → Bool → List Token → Except GrammarFlaw (List Command × List Token)
  | 0, _, _, ts => unexpected ts
  | fuel + 1, isTop, mayEnd, ts => do
    let ts := if isTop then ts else dropLineEnds ts
    let s := symbol ts
    if s = .lineEnd then return ([], ts.drop 1)
    if s = .fileEnd ∨ mayEnd ∧ !isTop ∧ isTerminator s then return ([], ts)
    let (c, ts) ← readAndOr fuel ts
    let andMore (c : Command) (ts : List Token) :
        Except GrammarFlaw (List Command × List Token) := do
      let (more, ts) ← readList fuel isTop true ts
      return (c :: more, ts)
    match symbol ts with
    | .lineEnd | .fileEnd => andMore c ts
    | .operator ";" => andMore c (ts.drop 1)
    | .operator "&" => andMore (.background c) (ts.drop 1)
    | _ => if isTop then unexpected ts else return ([c], ts)
termination_by structural fuel => fuel

/-- Reads pipelines with `&&` and `||` between them. -/
def readAndOr : Nat → List Token → Except GrammarFlaw (Command × List Token)
  | 0, ts => unexpected ts
  | fuel + 1, ts => do
    let (c, ts) ← readPipeline fuel true ts
    readAndOrFrom fuel c ts
termination_by structural fuel => fuel

def readAndOrFrom : Nat → Command → List Token → Except GrammarFlaw (Command × List Token)
  | 0, _, ts => unexpected ts
  | fuel + 1, c, ts =>
    match symbol ts with
    | .operator "&&" => do
      let (d, ts) ← readPipeline fuel true (dropLineEnds (ts.drop 1))
      readAndOrFrom fuel (.both c d) ts
    | .operator "||" => do
      let (d, ts) ← readPipeline fuel true (dropLineEnds (ts.drop 1))
      readAndOrFrom fuel (.either c d) ts
    | _ => .ok (c, ts)
termination_by structural fuel => fuel

/-- Reads commands with `|` between them. The result of the first one may be negated. -/
def readPipeline : Nat → Bool → List Token → Except GrammarFlaw (Command × List Token)
  | 0, _, ts => unexpected ts
  | fuel + 1, mayNegate, ts => do
    if mayNegate ∧ keyword? ts = some "!" then
      let (c, ts) ← readPipeline fuel false (ts.drop 1)
      return (.negated c, ts)
    let (c, ts) ← readCommand fuel ts
    if symbol ts = .operator "|" then
      let (more, ts) ← readPipeline fuel false (dropLineEnds (ts.drop 1))
      return (match more with
        | .pipeline cs => .pipeline (c :: cs)
        | more => .pipeline [c, more], ts)
    return (c, ts)
termination_by structural fuel => fuel

/-- Reads one command with its redirections. -/
def readCommand : Nat → List Token → Except GrammarFlaw (Command × List Token)
  | 0, ts => unexpected ts
  | fuel + 1, ts => do
    let line := (next ts).line
    let finish (c : Command) (ts : List Token) : Except GrammarFlaw (Command × List Token) := do
      let (rs, ts) ← readRedirections [] ts
      return (if rs = [] then c else .redirected line c rs, ts)
    match symbol ts, keyword? ts with
    | .operator "(", _ =>
      let (cs, ts) ← readList fuel false false (ts.drop 1)
      finish (.subshell (.sequence cs)) (← expectOperator ")" true ts)
    | _, some "\x7b" =>
      let (cs, ts) ← readList fuel false false (ts.drop 1)
      finish (.sequence cs) (← expect "\x7d" ts)
    | _, some "if" =>
      let (c, ts) ← readBranch fuel (ts.drop 1)
      finish c ts
    | _, some "while" =>
      let (c, ts) ← readLoop fuel false (ts.drop 1)
      finish c ts
    | _, some "until" =>
      let (c, ts) ← readLoop fuel true (ts.drop 1)
      finish c ts
    | _, some "for" =>
      match symbol (ts.drop 1) with
      | .word [.plain name] =>
        if !isName name then throw ⟨(next (ts.drop 1)).line, "Bad for loop variable"⟩
        let ts := dropLineEnds (ts.drop 2)
        let (words, ts) ← (
          if keyword? ts = some "in" then
            let (ws, ts) := readWords [] (ts.drop 1)
            if symbol ts = .lineEnd ∨ symbol ts = .operator ";" then
              .ok (some ws, ts.drop 1)
            else unexpected ts
          else .ok (none, if symbol ts = .operator ";" then ts.drop 1 else ts) :
            Except GrammarFlaw (Option (List Word) × List Token))
        let (cs, ts) ← readList fuel false false (← expect "do" (dropLineEnds ts))
        finish (.each line name words (.sequence cs)) (← expect "done" ts)
      | _ => throw ⟨(next (ts.drop 1)).line, "Bad for loop variable"⟩
    | _, some "case" =>
      match symbol (ts.drop 1) with
      | .word subject =>
        let (arms, ts) ← readArms fuel (← expect "in" (dropLineEnds (ts.drop 2)))
        finish (.choose line subject arms) ts
      | _ => refuse (ts.drop 1) none false
    | _, some _ => unexpected ts
    | .word _, none | .redirection .., none =>
      match readFunctionHead? ts with
      | some head =>
        let (name, ts) ← head
        let (body, ts) ← readCommand fuel (dropLineEnds ts)
        return (.define name body, ts)
      | none => readSimple line [] [] [] ts
    | _, none => unexpected ts
termination_by structural fuel => fuel

/-- Reads a condition with its branches and the word that ends them. -/
def readBranch : Nat → List Token → Except GrammarFlaw (Command × List Token)
  | 0, ts => unexpected ts
  | fuel + 1, ts => do
    let (condition, ts) ← readList fuel false false ts
    let (yes, ts) ← readList fuel false false (← expect "then" ts)
    let branch (no : Command) : Command := .branch (.sequence condition) (.sequence yes) no
    match keyword? ts with
    | some "elif" =>
      let (no, ts) ← readBranch fuel (ts.drop 1)
      return (branch no, ts)
    | some "else" =>
      let (no, ts) ← readList fuel false false (ts.drop 1)
      return (branch (.sequence no), ← expect "fi" ts)
    | _ => return (branch .nothing, ← expect "fi" ts)
termination_by structural fuel => fuel

/-- Reads a condition with the body of its loop. -/
def readLoop : Nat → Bool → List Token → Except GrammarFlaw (Command × List Token)
  | 0, _, ts => unexpected ts
  | fuel + 1, untilSuccess, ts => do
    let (condition, ts) ← readList fuel false false ts
    let (body, ts) ← readList fuel false false (← expect "do" ts)
    return (.loop untilSuccess (.sequence condition) (.sequence body), ← expect "done" ts)
termination_by structural fuel => fuel

/-- Reads the arms of a choice and the word that ends it. -/
def readArms : Nat → List Token → Except GrammarFlaw (List (List Word × Command) × List Token)
  | 0, ts => unexpected ts
  | fuel + 1, ts => do
    let ts := dropLineEnds ts
    if keyword? ts = some "esac" then return ([], ts.drop 1)
    let ts := if symbol ts = .operator "(" then ts.drop 1 else ts
    let (patterns, ts) ← readPatterns [] ts
    let (body, ts) ← readList fuel false true ts
    let ts := dropLineEnds ts
    if keyword? ts = some "esac" then return ([(patterns, .sequence body)], ts.drop 1)
    let (arms, ts) ← readArms fuel (← expectOperator ";;" true ts)
    return ((patterns, .sequence body) :: arms, ts)
termination_by structural fuel => fuel

end

/-- Reads the commands that begin on a line; `none` if the line is empty. -/
def readLine (ts : List Token) : Except GrammarFlaw (Option Command × List Token) := do
  let (cs, ts) ← readList (6 * ts.length + 8) true false ts
  return (if cs.isEmpty then none else some (.sequence cs), ts)

end Grammar

end CachedRun.Shell
