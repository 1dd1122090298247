import CachedRun.Shell.State

/-!
# Expansion

A part of the stand-in for the programs of a host (`CachedRun/Shell.lean`).

How words become the arguments of a command. The pieces of a word are expanded one after the other,
unquoted results are split at blanks, and a field with an unquoted pattern becomes the names that it
matches, if there are any.

How a single piece is expanded is a parameter here, because a substitution runs a whole script.
-/

set_option autoImplicit false

namespace CachedRun.Shell

/-- What a piece of a word has become. -/
inductive Part where
  | text (s : Marked)
  /-- The result of an unquoted expansion, which is split. -/
  | split (s : Raw)
  /-- The parameters, each of which is a field of its own. -/
  | list (isQuoted : Bool) (values : List Raw)

/-- The fields read so far, last first, and the one that is open. -/
structure Fields where
  done : List Marked
  current : Option Marked

namespace Fields

def add (f : Fields) (s : Marked) : Fields := { f with current := some (f.current.getD [] ++ s) }

/-- Ends the field that is open, if one is. -/
def close (f : Fields) : Fields :=
  match f.current with
  | some s => ⟨s :: f.done, none⟩
  | none => f

/-- Adds texts as the ends and beginnings of different fields. -/
def addAll (f : Fields) : List Marked → Fields
  | [] => f
  | s :: rest => rest.foldl (fun f s => f.close.add s) (f.add s)

/-- Adds the words of a text between the separators. Blank separators are worth one together, and
one that is not blank also with the blanks around it; the flag says whether the last character was a
blank separator that has ended a word. -/
def addSplit (separators : Raw) : Bool → Fields → Raw → Fields
  | _, f, [] => f
  | afterBlank, f, c :: rest =>
    if !separators.contains c then addSplit separators false (f.add [(c, false)]) rest
    else if isBlank c || c = '\n' then
      addSplit separators (afterBlank || f.current.isSome) f.close rest
    else if afterBlank then addSplit separators false f rest
    else addSplit separators false (f.add []).close rest

def addPart (separators : Raw) (f : Fields) : Part → Fields
  | .text s => f.add s
  | .split s => addSplit separators false f s
  | .list true values => f.addAll (values.map (Marked.of true))
  | .list false values =>
    values.foldl (fun (f, isFirst) v =>
      (addSplit separators false (if isFirst then f else f.close) v, false)) (f, true) |>.1

def ofParts (separators : Raw) (parts : List Part) : List Marked :=
  ((parts.foldl (addPart separators) ⟨[], none⟩).close).done.reverse

end Fields

/-- The text of a part that is not split. -/
def Part.marked : Part → Marked
  | .text s => s
  | .split s => Marked.of false s
  | .list isQuoted values => Marked.of isQuoted (Text.joinWith [' '] values)

/-- The names that a field stands for. -/
def expandNames (s : State) (field : Marked) : List Raw :=
  let name : Marked := (field.reverse.takeWhile fun c => c.1 ≠ '/').reverse
  let before : Marked := field.take (field.length - name.length)
  if s.options.contains 'f' || !Marked.isPattern name || Marked.isPattern before then
    [Marked.raw field]
  else
    let path? := if before = [] then some s.directory else resolve? s.directory (Marked.raw before)
    let names := match path? with
      | some path =>
        let all := if name.head? = some ('.', false) then [".", ".."] else []
        (sortedDistinct (all ++ s.tree.names path)).map Raw.ofText
      | none => []
    let isHidden (n : Raw) : Bool := n.head? = some '.' && (Marked.raw name).head? ≠ some '.'
    let found := names.filter fun n => !isHidden n && Marked.isMatch name n
    if found = [] then [Marked.raw field] else found.map (Marked.raw before ++ ·)

/-- How a piece is expanded. -/
abbrev Expander := Piece → State → List Part × State

/-- Expands pieces one after the other. -/
def expandPieces (expand : Expander) : Word → State → List Part × State
  | [], s => ([], s)
  | piece :: rest, s =>
    let (front, s) := expand piece s
    let (parts, s) := expandPieces expand rest s
    (front ++ parts, s)

/-- The text of a word that is not split. -/
def expandText (expand : Expander) (w : Word) (s : State) : Marked × State :=
  let (parts, s) := expandPieces expand w s
  (parts.flatMap Part.marked, s)

/-- The fields of a word. Quoted parameters are no field at all if there are none. -/
def expandWord (expand : Expander) (w : Word) (s : State) : List Raw × State :=
  if w = [.quoted [], .parameter true ['@'] []] ∧ s.parameters = [] then ([], s)
  else
    let (parts, s) := expandPieces expand w s
    ((Fields.ofParts s.separators parts).flatMap (expandNames s), s)

/-- The fields of words. -/
def expandWords (expand : Expander) : List Word → State → List Raw × State
  | [], s => ([], s)
  | w :: rest, s =>
    let (fields, s) := expandWord expand w s
    let (more, s) := expandWords expand rest s
    (fields ++ more, s)

/-- A text as the result of an expansion. -/
def Part.ofValue (isQuoted : Bool) (value : Raw) : Part :=
  if isQuoted then .text (Marked.of true value) else .split value

/-- What a piece becomes that stands in braces: plain text is split like the result of an
expansion. -/
def inBraces (expand : Expander) : Expander
  | .plain text, s => ([.split text], s)
  | piece, s => expand piece s

/-- Reads a word in braces; one that cannot be read stops the script. -/
def State.withWord {α : Type} (s : State) (word : Except String Word) (nothing : α)
    (go : Word → State → α × State) : α × State :=
  match word with
  | .ok w => go w s
  | .error missing => (nothing, s.fail ("Syntax error: ".toList ++ Raw.ofText missing))

/-- What becomes of a parameter with the operation in its braces. -/
def operate (expand : Expander) (isQuoted : Bool) (name operation : Raw) (s : State) :
    List Part × State :=
  let value := s.value? name
  let given := value.getD []
  let result (value : Raw) (s : State) : List Part × State := ([.ofValue isQuoted value], s)
  let wordOf (w : Raw) : Except String Word := if isQuoted then wordIn .braces w else wholeWord w
  let word (w : Raw) : List Part × State :=
    s.withWord (wordOf w) [] (expandPieces (inBraces expand))
  let text (w : Raw) : Raw × State :=
    s.withWord (wordOf w) [] fun w s =>
      let (text, s) := expandText expand w s
      (text.raw, s)
  let without (cut : Marked → Bool → Raw → Raw) (longest : Bool) (p : Raw) : List Part × State :=
    let (shorter, s) := s.withWord (wholeWord p) [] fun w s =>
      let (pattern, s) := expandText expand w s
      (cut pattern longest given, s)
    result shorter s
  let choose (isMissing : Bool) (sign : Char) (w : Raw) : List Part × State :=
    match sign with
    | '+' => if isMissing then result [] s else word w
    | '=' =>
      if isMissing then
        let (value, s) := text w
        result value (s.set name value)
      else result given s
    | '?' =>
      if isMissing then
        let (reason, s) := text w
        let reason := if reason ≠ [] then reason
          else if operation.head? = some ':' then "parameter not set or null".toList
          else "parameter not set".toList
        ([], s.fail (name ++ ": ".toList ++ reason))
      else result given s
    | '-' => if isMissing then word w else result given s
    | _ => ([], s.fail "Bad substitution".toList)
  let isKnown : Bool := isName name || name.all Char.isDigit ||
    (match name with
      | [c] => isSpecialName c
      | _ => false)
  if name = [] ∨ !isKnown then ([], s.fail "Bad substitution".toList)
  else match operation with
  | [] =>
    if value.isNone ∧ s.options.contains 'u' ∧ name ≠ ['@'] ∧ name ≠ ['*'] then
      ([], s.fail (name ++ ": parameter not set".toList))
    else result given s
  | ':' :: sign :: w => choose (given = []) sign w
  | '#' :: '#' :: p => without Marked.withoutStart true p
  | '#' :: p => without Marked.withoutStart false p
  | '%' :: '%' :: p => without Marked.withoutEnding true p
  | '%' :: p => without Marked.withoutEnding false p
  | sign :: w =>
    if operation = lengthOperation then result (State.decimal given.length) s
    else choose value.isNone sign w

end CachedRun.Shell
