/-!
# Blank characters

Text is trimmed and split at the characters of the Unicode property `White_Space`, which is wider
than the ASCII blanks: it holds the no-break space, the ogham space mark, the general punctuation
spaces, the line and paragraph separators and the ideographic space.

`trim` takes blanks off both ends and `words` splits at runs of them. Both work on lists of
characters, and each has a twin on `String` for callers that hold text.
-/

set_option autoImplicit false

namespace CachedRun.Text

/-- The twenty-five characters of the Unicode property `White_Space`. -/
def isBlank (c : Char) : Bool :=
  let n := c.toNat
  (9 ≤ n && n ≤ 13) || n == 0x20 || n == 0x85 || n == 0xA0 || n == 0x1680
    || (0x2000 ≤ n && n ≤ 0x200A) || n == 0x2028 || n == 0x2029 || n == 0x202F
    || n == 0x205F || n == 0x3000

/-- Every ASCII blank is a blank. -/
theorem isBlank_of_isWhitespace {c : Char} (h : c.isWhitespace = true) : isBlank c = true := by
  simp only [Char.isWhitespace, Bool.or_eq_true, decide_eq_true_eq] at h
  rcases h with ((h | h) | h) | h <;> subst h <;> decide

/-- Drops the elements that satisfy `p` from the end of a list. -/
def dropEndWhile {α : Type} (p : α → Bool) (s : List α) : List α :=
  (s.reverse.dropWhile p).reverse

def trimStart (s : List Char) : List Char := s.dropWhile isBlank

def trimEnd (s : List Char) : List Char := dropEndWhile isBlank s

/-- The text without the blanks at its two ends. -/
def trim (s : List Char) : List Char := trimEnd (trimStart s)

/-- The text of a string without the blanks at its two ends. -/
def trimmed (s : String) : String := String.ofList (trim s.toList)

/-- Splits at runs of characters that satisfy `p`; no piece is empty. The accumulator holds the
piece being read, last character first. -/
def splitRuns (p : Char → Bool) : List Char → List Char → List (List Char)
  | [], [] => []
  | acc, [] => [acc.reverse]
  | [], c :: rest => if p c then splitRuns p [] rest else splitRuns p [c] rest
  | acc, c :: rest =>
    if p c then acc.reverse :: splitRuns p [] rest else splitRuns p (c :: acc) rest

/-- The blank-separated words of a text. -/
def words (s : List Char) : List (List Char) := splitRuns isBlank [] s

/-- Splits at the first character equal to `c`; `none` if there is none. -/
def splitAtFirst? (c : Char) : List Char → Option (List Char × List Char)
  | [] => none
  | d :: rest =>
    if d = c then some ([], rest) else (splitAtFirst? c rest).map fun (a, b) => (d :: a, b)

/-- Takes a known beginning off a list; `none` if the list does not begin with it. -/
def dropStart? {α : Type} [DecidableEq α] : List α → List α → Option (List α)
  | [], s => some s
  | _ :: _, [] => none
  | a :: as, b :: bs => if a = b then dropStart? as bs else none

/-- Takes a known ending off a list; `none` if the list does not end with it. -/
def dropEnding? {α : Type} [DecidableEq α] (ending s : List α) : Option (List α) :=
  (dropStart? ending.reverse s.reverse).map List.reverse

/-- The texts of a list with a separator between each two. -/
def joinWith (separator : List Char) : List (List Char) → List Char
  | [] => []
  | [s] => s
  | s :: rest => s ++ separator ++ joinWith separator rest

end CachedRun.Text
