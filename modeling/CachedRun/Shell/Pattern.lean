import CachedRun.Shell.Word

/-!
# Patterns

A part of the stand-in for the programs of a host (`CachedRun/Shell.lean`).

Patterns stand in `case` commands, in words that name several files and in the operations of
parameters. An unquoted `*` matches any text, `?` any character and `[…]` one of a set; everything
else, and everything quoted, matches itself.
-/

set_option autoImplicit false

namespace CachedRun.Shell

/-- Text whose characters are marked as quoted or not. -/
abbrev Marked := List (Char × Bool)

namespace Marked

/-- Text of which everything is quoted, or nothing. -/
def of (isQuoted : Bool) (s : Raw) : Marked := s.map fun c => (c, isQuoted)

/-- The text without the marks. -/
def raw (s : Marked) : Raw := s.map Prod.fst

/-- Whether a text holds anything that matches more than itself. -/
def isPattern (s : Marked) : Bool :=
  s.any fun (c, isQuoted) => !isQuoted && (c = '*' || c = '?' || c = '[')

/-- A set of characters in brackets. -/
structure Set where
  negated : Bool
  ranges : List (Char × Char)

def Set.matches (s : Set) (c : Char) : Bool :=
  (s.ranges.any fun (a, b) => a ≤ c && c ≤ b) != s.negated

/-- Reads the ranges of a set up to its closing bracket, which at the beginning is a member. -/
def readRanges (isFirst : Bool) : Marked → Option (List (Char × Char) × Marked)
  | [] => none
  | (']', _) :: rest =>
    if isFirst then (readRanges false rest).map fun (rs, rest) => ((']', ']') :: rs, rest)
    else some ([], rest)
  | (a, _) :: ('-', _) :: (b, q) :: rest =>
    if b = ']' then (readRanges false ((b, q) :: rest)).map fun (rs, rest) =>
      ((a, a) :: ('-', '-') :: rs, rest)
    else (readRanges false rest).map fun (rs, rest) => ((a, b) :: rs, rest)
  | (a, _) :: rest => (readRanges false rest).map fun (rs, rest) => ((a, a) :: rs, rest)
termination_by s => s.length

/-- Reads a set after its opening bracket. -/
def readSet : Marked → Option (Set × Marked)
  | ('!', _) :: rest => (readRanges true rest).map fun (rs, rest) => (⟨true, rs⟩, rest)
  | ('^', _) :: rest => (readRanges true rest).map fun (rs, rest) => (⟨true, rs⟩, rest)
  | s => (readRanges true s).map fun (rs, rest) => (⟨false, rs⟩, rest)

/-- Whether a pattern matches a whole text. The fuel bounds the steps: each drops a character of the
pattern or of the text. -/
def matchesWithin : Nat → Marked → Raw → Bool
  | 0, _, _ => false
  | _, [], s => s.isEmpty
  | fuel + 1, ('*', false) :: p, s =>
    matchesWithin fuel p s ||
      match s with
      | _ :: rest => matchesWithin fuel (('*', false) :: p) rest
      | [] => false
  | fuel + 1, ('?', false) :: p, s =>
    match s with
    | _ :: rest => matchesWithin fuel p rest
    | [] => false
  | fuel + 1, (c, isQuoted) :: p, s =>
    match s with
    | d :: rest =>
      match if c = '[' ∧ !isQuoted then readSet p else none with
      | some (set, p) => set.matches d && matchesWithin fuel p rest
      | none => c = d && matchesWithin fuel p rest
    | [] => false

def isMatch (pattern : Marked) (s : Raw) : Bool :=
  matchesWithin (pattern.length + s.length + 1) pattern s

/-- The splittings of a text in two, the shortest beginning first. -/
def splittings (s : Raw) : List (Raw × Raw) :=
  (List.range (s.length + 1)).map fun n => (s.take n, s.drop n)

/-- The text without the shortest or the longest beginning that a pattern matches. -/
def withoutStart (pattern : Marked) (longest : Bool) (s : Raw) : Raw :=
  let splits := if longest then (splittings s).reverse else splittings s
  match splits.find? fun split => isMatch pattern split.1 with
  | some split => split.2
  | none => s

/-- The text without the shortest or the longest ending that a pattern matches. -/
def withoutEnding (pattern : Marked) (longest : Bool) (s : Raw) : Raw :=
  let splits := if longest then splittings s else (splittings s).reverse
  match splits.find? fun split => isMatch pattern split.2 with
  | some split => split.1
  | none => s

example : isMatch (of false "*.[ch]".toList) "a.b.c".toList = true := by decide +kernel
example : withoutEnding (of false ".*".toList) false "a.b.c".toList = "a.b".toList := by
  decide +kernel

end Marked

end CachedRun.Shell
