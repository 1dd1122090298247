import CachedRun.Fault

/-!
# Image references

An image reference is passed on to the container daemon, so it is checked before it gets there: it
is not empty, not longer than 512 bytes, does not look like an option, and consists of ASCII letters
and digits and the six characters that references are built with. The first broken rule is reported.
-/

set_option autoImplicit false

namespace CachedRun.Image

/-- The greatest length of a reference in bytes. -/
def maxLength : Nat := 512

/-- A character that references are built with. -/
def isReferenceChar (c : Char) : Bool :=
  c.isAlphanum || c == '/' || c == ':' || c == '.' || c == '-' || c == '_' || c == '@'

/-- What is wrong with a reference, if anything. -/
def flaw? (reference : String) : Option String :=
  if reference = "" then some "empty"
  else if reference.utf8ByteSize > maxLength then some s!"exceeds {maxLength} bytes"
  else if reference.toList.head? = some '-' then some "must not start with '-'"
  else if !reference.toList.all isReferenceChar then some "contains invalid characters"
  else none

/-- Accepts a well-formed reference. -/
def validate (reference : String) : Except Fault Unit :=
  match flaw? reference with
  | some reason => .error (.invalidImage reference reason)
  | none => .ok ()

end CachedRun.Image
