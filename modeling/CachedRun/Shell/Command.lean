import CachedRun.Shell.Token

/-!
# Commands of a shell script

A part of the stand-in for the programs of a host (`CachedRun/Shell.lean`).

The commands that a script is made of: simple commands, pipelines, lists, functions, and the
compound commands with `if`, `while`, `until`, `for`, `case`, braces and parentheses. Those that may
complain while their words are expanded know the line that they begin on.
-/

set_option autoImplicit false

namespace CachedRun.Shell

/-- A redirection: the stream, the operator and the target. -/
structure Redirection where
  stream : Option Nat
  operator : String
  target : Word
  deriving Repr, DecidableEq, Inhabited

/-- A command. -/
inductive Command where
  | simple (line : Nat) (assignments : List (Raw × Word)) (words : List Word)
    (redirections : List Redirection)
  /-- Commands each of which reads what the one before writes. -/
  | pipeline (stages : List Command)
  | negated (c : Command)
  /-- The second runs if the first succeeds. -/
  | both (a b : Command)
  /-- The second runs if the first fails. -/
  | either (a b : Command)
  | sequence (cs : List Command)
  | branch (condition yes no : Command)
  /-- A loop that goes on while its condition succeeds, or until it does. -/
  | loop (untilSuccess : Bool) (condition body : Command)
  /-- A loop over words; over the parameters if there are none. -/
  | each (line : Nat) (name : Raw) (words : Option (List Word)) (body : Command)
  | choose (line : Nat) (subject : Word) (arms : List (List Word × Command))
  | subshell (c : Command)
  | redirected (line : Nat) (c : Command) (redirections : List Redirection)
  /-- A command that the script does not wait for. -/
  | background (c : Command)
  /-- Gives a function its name. -/
  | define (name : Raw) (body : Command)
  deriving Repr, Inhabited

namespace Command

/-- A command that does nothing. -/
def nothing : Command := .sequence []

/-- The redirections of a command itself, or of the one command that it consists of. -/
def redirections : Command → List Redirection
  | .simple _ _ _ rs => rs
  | .redirected _ _ rs => rs
  | .sequence [.simple _ _ _ rs] => rs
  | .subshell (.sequence [.simple _ _ _ rs]) => rs
  | _ => []

/-- The commands of the shell whose failure ends a script, and whose names no function can have. -/
def specialNames : List String :=
  [".", ":", "break", "continue", "eval", "exec", "exit", "export", "readonly", "return", "set",
    "shift", "times", "trap", "unset"]

def isSpecial (name : Raw) : Bool := specialNames.contains (String.ofList name)

end Command

end CachedRun.Shell
