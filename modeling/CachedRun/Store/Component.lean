import CachedRun.Store.FileTree

/-!
# Parts of a path text

A path arrives as text with slashes. Its parts are the names between them; empty parts and `.` say
nothing and are passed over, except that a `.` at the very beginning is kept as a part of its own.
A text that begins with a slash starts at the root.
-/

set_option autoImplicit false

namespace CachedRun

/-- The pieces of a text between the characters equal to `c`; there is always at least one. -/
def Text.splitAt (c : Char) (s : List Char) : List (List Char) :=
  s.foldr (fun d pieces =>
    if d = c then [] :: pieces
    else match pieces with
      | [] => [[d]]
      | piece :: pieces => (d :: piece) :: pieces) [[]]

/-- A part of a path text. -/
inductive Component where
  | root
  | current
  | parent
  | name (text : String)
  deriving Repr, DecidableEq

namespace Component

/-- The part that a piece between slashes stands for, unless it says nothing. -/
def ofPiece? (piece : List Char) : Option Component :=
  if piece = [] ∨ piece = ['.'] then none
  else if piece = ['.', '.'] then some .parent
  else some (.name (String.ofList piece))

/-- The parts of a path text. -/
def ofText (path : String) : List Component :=
  let pieces := Text.splitAt '/' path.toList
  let start : List Component :=
    if path.toList.head? = some '/' then [.root]
    else if pieces.head? = some ['.'] then [.current]
    else []
  start ++ pieces.filterMap ofPiece?

/-- The name that a part adds to a path. -/
def name? : Component → Option String
  | .name text => some text
  | _ => none

example : ofText "/a//./b/" = [.root, .name "a", .name "b"] := by decide
example : ofText "./../c" = [.current, .parent, .name "c"] := by decide

end Component

/-- The names of a path text, whatever else it holds. -/
def Path.ofText (path : String) : Path := (Component.ofText path).filterMap Component.name?

end CachedRun
