import CachedRun.Text.Utf8

/-!
# File trees

Files and directories by their path, as far as caches and runners use them. A path is a list of
names, the empty path is the root, and the root is always a directory. Nothing else is assumed: a
file may lie below a path that is no directory only if a tree was built that way, and no operation
builds one.
-/

set_option autoImplicit false

namespace CachedRun

/-- A file or a directory. -/
inductive Node where
  | file (content : Bytes)
  | directory
  deriving Repr, DecidableEq

/-- The names on the way from the root. -/
abbrev Path := List String

/-- Files and directories by path. -/
structure FileTree where
  nodes : List (Path × Node)
  deriving Repr

namespace FileTree

/-- Why an operation is refused. -/
inductive Flaw where
  | missing
  | notDirectory
  | isDirectory
  | notEmpty
  | exists
  deriving Repr, DecidableEq

def Flaw.text : Flaw → String
  | .missing => "No such file or directory"
  | .notDirectory => "Not a directory"
  | .isDirectory => "Is a directory"
  | .notEmpty => "Directory not empty"
  | .exists => "File exists"

/-- The number that the system gives to a refusal. -/
def Flaw.number : Flaw → Nat
  | .missing => 2
  | .notDirectory => 20
  | .isDirectory => 21
  | .notEmpty => 39
  | .exists => 17

def Flaw.message (flaw : Flaw) : String := s!"{flaw.text} (os error {flaw.number})"

def empty : FileTree := ⟨[]⟩

/-- What is at a path. -/
def node? (t : FileTree) (path : Path) : Option Node :=
  if path = [] then some .directory else (t.nodes.find? fun n => n.1 = path).map Prod.snd

/-- The content of the file at a path. -/
def file? (t : FileTree) (path : Path) : Option Bytes :=
  match t.node? path with
  | some (.file content) => some content
  | _ => none

def isDirectory (t : FileTree) (path : Path) : Bool := t.node? path = some .directory

/-- Whether there is anything at a path. -/
def occupied (t : FileTree) (path : Path) : Bool := (t.node? path).isSome

/-- Puts a node at a path, in place of what is there. -/
def set (t : FileTree) (path : Path) (node : Node) : FileTree :=
  ⟨t.nodes.filter (fun n => n.1 ≠ path) ++ [(path, node)]⟩

/-- Drops what is at a path. -/
def unset (t : FileTree) (path : Path) : FileTree := ⟨t.nodes.filter fun n => n.1 ≠ path⟩

/-- Whether a path leads to another or below it. -/
def isBelow (base path : Path) : Bool := base.isPrefixOf path

/-- The files at a path and below it, in no particular order. -/
def filesBelow (t : FileTree) (base : Path) : List (Path × Bytes) :=
  t.nodes.filterMap fun (path, node) =>
    match node with
    | .file content => if isBelow base path then some (path, content) else none
    | .directory => none

/-- The names in a directory, in no particular order. -/
def names (t : FileTree) (directory : Path) : List String :=
  t.nodes.filterMap fun (path, _) =>
    if path ≠ [] ∧ path.dropLast = directory then path.getLast? else none

/-- Makes the directories with the given names, one inside the other. -/
def createDirectoriesIn (t : FileTree) (base : Path) : Path → Except Flaw FileTree
  | [] => .ok t
  | name :: rest =>
    let path := base ++ [name]
    match t.node? path with
    | some .directory => createDirectoriesIn t path rest
    | some (.file _) => .error (if rest = [] then .exists else .notDirectory)
    | none => createDirectoriesIn (t.set path .directory) path rest

/-- Makes a directory and those on the way to it, as far as they are missing. -/
def createDirectories (t : FileTree) (path : Path) : Except Flaw FileTree :=
  t.createDirectoriesIn [] path

/-- Why nothing is found at a path: a part of it may be a file. -/
def absence (t : FileTree) (path : Path) : Flaw :=
  if (List.range path.length).any fun n => (t.file? (path.take n)).isSome then .notDirectory
  else .missing

/-- What keeps a file from being put at a path, if anything. -/
def obstacle? (t : FileTree) (path : Path) : Option Flaw :=
  match t.node? path with
  | some .directory => some .isDirectory
  | _ => if t.isDirectory path.dropLast then none else some (t.absence path)

/-- Writes a file into a directory that is there. -/
def write (t : FileTree) (path : Path) (content : Bytes) : Except Flaw FileTree :=
  match t.obstacle? path with
  | some flaw => .error flaw
  | none => .ok (t.set path (.file content))

/-- Reads a file. -/
def read (t : FileTree) (path : Path) : Except Flaw Bytes :=
  match t.node? path with
  | some (.file content) => .ok content
  | some .directory => .error .isDirectory
  | none => .error (t.absence path)

/-- Removes a file. -/
def removeFile (t : FileTree) (path : Path) : Except Flaw FileTree :=
  match t.node? path with
  | some (.file _) => .ok (t.unset path)
  | some .directory => .error .isDirectory
  | none => .error (t.absence path)

/-- Gives a file another path, in place of a file that is there. -/
def rename (t : FileTree) (source target : Path) : Except Flaw FileTree := do
  let content ← t.read source
  (t.unset source).write target content

/-- Removes a directory with all that is in it. -/
def removeTree (t : FileTree) (base : Path) : FileTree :=
  ⟨t.nodes.filter fun n => !isBelow base n.1⟩

end FileTree

end CachedRun
