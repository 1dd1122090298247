import CachedRun.Decimal.Layout
import CachedRun.Dict
import CachedRun.Shell.Word
import CachedRun.Store.Component
import CachedRun.Text.Blank

/-!
# Tools

A part of the stand-in for the programs of a host (`CachedRun/Shell.lean`).

A tool is a program that scripts call: it gets arguments, standard input and the files, and gives
back what it prints, what it leaves of its input, the files and a status. This module says how tools
are called, how they find files, and what the tools do that work on whole files.
-/

set_option autoImplicit false

namespace CachedRun.Shell

/-- What can be read from a stream: a text, and whether more follows it without end. -/
structure Supply where
  text : Raw
  isEndless : Bool

/-- A stream that has ended. -/
def Supply.nothing : Supply := ⟨[], false⟩

/-- What is left of a stream after some of it has been read. -/
def Supply.drop (n : Nat) (s : Supply) : Supply := { s with text := s.text.drop n }

/-- What a tool works with. -/
structure Call where
  arguments : List Raw
  stdin : Supply
  tree : FileTree
  /-- The working directory. -/
  directory : Path

/-- What a tool leaves. -/
structure Result where
  status : Nat
  /-- The texts in the order of printing, last first, each with whether it is an error. -/
  printed : List (Bool × Raw)
  stdin : Supply
  tree : FileTree
  /-- The time it took in milliseconds. -/
  millis : Nat
  /-- Whether it never comes to an end. -/
  isEndless : Bool

namespace Result

/-- A result to begin with: nothing has happened yet. -/
def start (c : Call) : Result := ⟨0, [], c.stdin, c.tree, 0, false⟩

def print (r : Result) (text : Raw) : Result := { r with printed := (false, text) :: r.printed }

def withStatus (r : Result) (status : Nat) : Result := { r with status }

/-- Prints an error with a line end and a status. -/
def complain (r : Result) (status : Nat) (text : Raw) : Result :=
  { r with status, printed := (true, text ++ ['\n']) :: r.printed }

/-- Refuses arguments and points to the help of the tool. -/
def misused (r : Result) (tool reason : String) : Result :=
  r.complain 1 (Raw.ofText s!"{tool}: {reason}\nTry '{tool} --help' for more information.")

end Result

/-! ## Files -/

/-- The path that a text leads to from a directory; absolute paths lead nowhere. -/
def resolve? (directory : Path) (text : Raw) : Option Path :=
  (Component.ofText text.toText).foldlM (fun path part =>
    match part with
    | .root => none
    | .current => some path
    | .parent => some path.dropLast
    | .name n => some (path ++ [n])) directory

/-- What is at a path, and why nothing is. The empty device is an empty file. -/
def look (t : FileTree) (directory : Path) (text : Raw) : Except FileTree.Flaw (Path × Node) :=
  if text = "/dev/null".toList then .ok ([], .file [])
  else match if text = [] then none else resolve? directory text with
  | none => .error .missing
  | some path =>
    match t.node? path with
    | some node =>
      if text.getLast? = some '/' ∧ node ≠ .directory then .error .notDirectory
      else .ok (path, node)
    | none => .error (t.absence path)

/-- Whether a name means standard input. -/
def isStdin (name : Raw) : Bool := name = ['-'] || name = "/dev/stdin".toList

/-- Zero bytes without end, of which at least some are given. -/
def zeros (least : Nat) : Supply := ⟨List.replicate (max least 1000000) '\x00', true⟩

/-- What is read under a name, of which at least some bytes may be wanted. -/
def Call.source (c : Call) (stdin : Supply) (name : Raw) (least : Nat) :
    Except FileTree.Flaw Supply :=
  if isStdin name then .ok stdin
  else if name = "/dev/null".toList then .ok .nothing
  else if name = "/dev/zero".toList then .ok (zeros least)
  else match look c.tree c.directory name with
    | .ok (_, .file content) => .ok ⟨Raw.ofBytes content, false⟩
    | .ok (_, .directory) => .error .isDirectory
    | .error flaw => .error flaw

/-- What is left of standard input after all that is under a name has been read. -/
def restOf (stdin : Supply) (name : Raw) : Supply := if isStdin name then .nothing else stdin

/-- A name in a complaint: without quotes, unless it is empty. -/
def shownName (name : Raw) : String := if name = [] then "\u0027\u0027" else name.toText

/-- Splits arguments into the letters of options and the rest. -/
def splitOptions : List Raw → List Char × List Raw
  | [] => ([], [])
  | a :: rest =>
    if a = ['-', '-'] then ([], rest)
    else match a with
      | '-' :: '-' :: _ => splitOptions rest
      | '-' :: c :: more =>
        let (letters, operands) := splitOptions rest
        (c :: more ++ letters, operands)
      | a =>
        let (letters, operands) := splitOptions rest
        (letters, a :: operands)

/-! ## Whole files -/

/-- The lines of a text, each with its line end; the last one may have none. -/
def linesOf (s : Raw) : List Raw :=
  let pieces := Text.splitAt '\n' s
  let ended := pieces.dropLast.map (· ++ ['\n'])
  match pieces.getLast? with
  | some [] | none => ended
  | some last => ended ++ [last]

/-- A text with what options of `cat` add to it: numbers before its lines, or before those that are
not empty, a sign at the end of each line, and a spelling for tabs. The lines are counted on. -/
def decorated (letters : List Char) (count : Nat) (s : Raw) : Nat × Raw :=
  let numbersSome := letters.contains 'b'
  let numbers := numbersSome || letters.contains 'n'
  let decorate (line : Raw) : Raw := line.flatMap fun c =>
    if c = '\n' ∧ letters.contains 'E' then ['$', '\n']
    else if c = '\t' ∧ letters.contains 'T' then ['^', 'I']
    else [c]
  (linesOf s).foldl (fun (count, text) line =>
    if numbers ∧ !(numbersSome ∧ line = ['\n']) then
      let number := Decimal.digitsText (count + 1)
      (count + 1, text ++ List.replicate (6 - number.length) ' ' ++ number ++ '\t' :: decorate line)
    else (count, text ++ decorate line)) (count, [])

/-- Prints files one after the other. -/
def cat (c : Call) : Result :=
  let (letters, names) := splitOptions c.arguments
  ((if names = [] then [['-']] else names).foldl (fun (count, (r : Result)) name =>
    if r.isEndless then (count, r)
    else match c.source r.stdin name 0 with
      | .ok s =>
        let (count, text) := if letters = [] then (count, s.text)
          else decorated letters count s.text
        (count, { r.print text with stdin := restOf r.stdin name, isEndless := s.isEndless })
      | .error flaw => (count, r.complain 1 (Raw.ofText
          s!"cat: {shownName name}: {flaw.text}"))) (0, .start c)).2

/-- The names in a directory as they are listed. -/
def listing (t : FileTree) (path : Path) (letters : List Char) : List String :=
  let names := sortedDistinct (t.names path)
  if letters.contains 'a' then "." :: ".." :: names
  else if letters.contains 'A' then names
  else names.filter fun n => n.toList.head? ≠ some '.'

/-- Prints lines. -/
def lines (texts : List String) : Raw := texts.flatMap fun text => Raw.ofText text ++ ['\n']

/-- Lists files and then directories. -/
def ls (c : Call) : Result :=
  let (letters, names) := splitOptions c.arguments
  let names := (if names = [] then [['.']] else names).mergeSort fun a b => !decide (b < a)
  let found := names.map fun name => (name, look c.tree c.directory name)
  let r := found.foldl (fun r (name, node) =>
    match node with
    | .error flaw =>
      r.complain 2 (Raw.ofText s!"ls: cannot access '{name.toText}': {flaw.text}")
    | .ok _ => r) (Result.start c)
  let isListed (node : Node) : Bool := node = .directory && !letters.contains 'd'
  let files := found.filterMap fun (name, node) =>
    match node with
    | .ok (_, node) => if isListed node then none else some name.toText
    | .error _ => none
  let directories := found.filterMap fun (name, node) =>
    match node with
    | .ok (path, node) =>
      if isListed node then some (name.toText, lines (listing c.tree path letters)) else none
    | .error _ => none
  let blocks := (if files = [] then [] else [lines files]) ++ directories.map fun (name, text) =>
    if names.length = 1 then text else Raw.ofText s!"{name}:\n" ++ text
  r.print (Text.joinWith ['\n'] blocks)

/-- Makes directories. -/
def mkdir (c : Call) : Result :=
  let (letters, names) := splitOptions c.arguments
  if names = [] then (Result.start c).misused "mkdir" "missing operand"
  else names.foldl (fun r name =>
    let refuse (flaw : FileTree.Flaw) : Result :=
      r.complain 1 (Raw.ofText s!"mkdir: cannot create directory '{name.toText}': {flaw.text}")
    match resolve? c.directory name with
    | none => refuse .missing
    | some path =>
      if letters.contains 'p' then
        match r.tree.createDirectories path with
        | .ok tree => { r with tree }
        | .error .exists => refuse .exists
        | .error flaw =>
          let file := (List.range path.length).find? fun n => (r.tree.file? (path.take n)).isSome
          let parts := Text.splitAt '/' name
          let shown : Raw := match file with
            | some n => Text.joinWith ['/'] (parts.take (parts.length - (path.length - n)))
            | none => name
          r.complain 1 (Raw.ofText
            s!"mkdir: cannot create directory '{shown.toText}': {flaw.text}")
      else if r.tree.occupied path then refuse .exists
      else match r.tree.node? path.dropLast with
        | some .directory => { r with tree := r.tree.set path .directory }
        | some (.file _) => refuse .notDirectory
        | none => refuse .missing) (.start c)

/-- Copies one file, or a directory with all that is in it. -/
def copyNode (t : FileTree) (source target : Path) : Node → Except FileTree.Flaw FileTree
  | .file content => t.write target content
  | .directory => do
    let below := t.nodes.filter fun (path, _) => FileTree.isBelow source path && path ≠ source
    let t ← t.createDirectories target
    return below.foldl (fun t (path, node) => t.set (target ++ path.drop source.length) node) t

/-- Copies files into a directory, or one to a new name. -/
def cp (c : Call) : Result :=
  let (letters, names) := splitOptions c.arguments
  let r := Result.start c
  match names.getLast?, names.dropLast with
  | none, _ => r.misused "cp" "missing file operand"
  | some name, [] => r.misused "cp" s!"missing destination file operand after '{name.toText}'"
  | some target, sources =>
    let isRecursive := letters.any fun l => l = 'r' || l = 'R' || l = 'a'
    let into : Option Path := match look c.tree c.directory target with
      | .ok (path, .directory) => some path
      | _ => none
    if sources.length > 1 ∧ into = none then
      r.complain 1 (Raw.ofText s!"cp: target '{target.toText}': {FileTree.Flaw.missing.text}")
    else sources.foldl (fun (r : Result) (name : Raw) =>
      match look r.tree c.directory name with
      | .error flaw => r.complain 1 (Raw.ofText s!"cp: cannot stat '{name.toText}': {flaw.text}")
      | .ok (source, node) =>
        if node = .directory ∧ !isRecursive then
          r.complain 1 (Raw.ofText
            s!"cp: -r not specified; omitting directory '{name.toText}'")
        else
          let place? : Option Path := match into with
            | some path => some (path ++ source.getLast?.toList)
            | none => resolve? c.directory target
          let refuse (flaw : FileTree.Flaw) : Result := r.complain 1 (Raw.ofText
            s!"cp: cannot create regular file '{target.toText}': {flaw.text}")
          match place? with
          | none => refuse .missing
          | some place =>
            match copyNode r.tree source place node with
            | .ok tree => { r with tree }
            | .error flaw => refuse flaw) r

end CachedRun.Shell
