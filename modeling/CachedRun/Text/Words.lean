/-!
# Words of a command line

A command is written as one line and split into words the way a POSIX shell splits simple words:
blanks (space, tab, newline) separate, `'…'` keeps everything, `"…"` keeps everything but a
backslash before `$`, a backquote, `"`, a backslash or a newline, a backslash outside quotes keeps
the next character, and a backslash before a newline joins lines. A `#` that stands where a word
would start begins a comment that ends with its line.

The reader is a machine with one step per character; a line is refused only when it ends inside
quotes or after a lone backslash.
-/

set_option autoImplicit false

namespace CachedRun.Text.Words

/-- Where the reader stands. -/
inductive Mode where
  | between
  | comment
  | word
  /-- After a backslash outside quotes. -/
  | escape
  | single
  | double
  /-- After a backslash inside double quotes. -/
  | doubleEscape
  deriving Repr, DecidableEq

/-- The words read so far, the current one (last character first), and where the reader stands. -/
structure State where
  done : List (List Char)
  current : List Char
  mode : Mode

def State.start : State := ⟨[], [], .between⟩

def isSeparator (c : Char) : Bool := c == ' ' || c == '\t' || c == '\n'

/-- The step taken inside a word and outside quotes. -/
def State.inWord (s : State) (c : Char) : State :=
  if c = '"' then { s with mode := .double }
  else if c = '\'' then { s with mode := .single }
  else if c = '\\' then { s with mode := .escape }
  else if isSeparator c then ⟨s.current.reverse :: s.done, [], .between⟩
  else { s with current := c :: s.current, mode := .word }

def State.step (s : State) (c : Char) : State :=
  match s.mode with
  | .between =>
    if isSeparator c then s
    else if c = '#' then { s with mode := .comment }
    else s.inWord c
  | .comment => if c = '\n' then { s with mode := .between } else s
  | .word => s.inWord c
  | .escape =>
    if c = '\n' then { s with mode := .word }
    else { s with current := c :: s.current, mode := .word }
  | .single =>
    if c = '\'' then { s with mode := .word } else { s with current := c :: s.current }
  | .double =>
    if c = '"' then { s with mode := .word }
    else if c = '\\' then { s with mode := .doubleEscape }
    else { s with current := c :: s.current }
  | .doubleEscape =>
    if c = '\n' then { s with mode := .double }
    else if c = '$' || c = '\u0060' || c = '"' || c = '\\' then
      { s with current := c :: s.current, mode := .double }
    else { s with current := c :: '\\' :: s.current, mode := .double }

/-- The words at the end of the line; `none` if quotes or a backslash are left open. -/
def State.finish (s : State) : Option (List (List Char)) :=
  match s.mode with
  | .between | .comment => some s.done.reverse
  | .word => some (s.current.reverse :: s.done).reverse
  | .escape | .single | .double | .doubleEscape => none

/-- The words of a command line. -/
def split (line : String) : Option (List String) :=
  (line.toList.foldl State.step .start).finish.map (·.map String.ofList)

example : split "run 'a b' \"c\\\"d\" e\\ f # rest" = some ["run", "a b", "c\"d", "e f"] := by
  decide
example : split "a\"b" = none := by decide

end CachedRun.Text.Words
