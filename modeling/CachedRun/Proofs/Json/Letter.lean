import CachedRun.Json.Letter
import CachedRun.Json.Writer

/-!
# JSON strings — what is quoted is read back

A writer spells every character of a text in one of three ways, as itself, behind a backslash or by
number, and a reader of the string finds one letter for it (`Letter.ofChar`). The letters of a whole
text are the text again (`Letters.text?_ofString`): a number is written only for a character below
the halves.
-/

set_option autoImplicit false

namespace CachedRun.Json

open Text (Place)

variable {c : Char} {found : Letters} {rest : List Place}

/-- The letter that a reader finds where a character was written. -/
def Letter.ofChar (c : Char) : Letter :=
  if c.toNat < 32 ∧ c.toNat ∉ [8, 9, 10, 12, 13] then .numbered c.toNat else .plain (some c)

/-- The letters that a reader finds in a string that was written. -/
def Letters.ofString (s : String) : Letters := s.toList.map Letter.ofChar

theorem Letter.ofChar_plain (h : ¬(c.toNat < 32 ∧ c.toNat ∉ [8, 9, 10, 12, 13])) :
    ofChar c = .plain (some c) := if_neg h

theorem Letter.ofChar_numbered (hcontrol : c.toNat < 32) (h : c.toNat ∉ [8, 9, 10, 12, 13]) :
    ofChar c = .numbered c.toNat := if_pos ⟨hcontrol, h⟩

theorem hexNumber?_control : ∀ n < 32,
    hexNumber? (n / 4096 % 16).digitChar (n / 256 % 16).digitChar (n / 16 % 16).digitChar
      (n % 16).digitChar = some n := by
  decide +kernel

theorem readString_escape {e : Char} (h : escapedLetter? e = some c) :
    readString found (some '\\' :: some e :: rest) =
      readString (.plain (some c) :: found) rest := by
  have hu : e ≠ 'u' := by
    rintro rfl
    cases h
  rw [readString.eq_def]
  simp [hu, h]

theorem readString_plain (hcontrol : ¬c.toNat < 32) (hquote : c ≠ '"') (hslash : c ≠ '\\') :
    readString found (some c :: rest) = readString (.plain (some c) :: found) rest := by
  rw [readString.eq_def]
  simp [hslash, hcontrol]

/-- The five control characters that have a letter. -/
theorem readString_letter {n : Nat} {e : Char} (hc : c.toNat = n) (hn : n ∈ [8, 9, 10, 12, 13])
    (he : escapedLetter? e = some (Char.ofNat n)) :
    readString found (some '\\' :: some e :: rest) = readString (.ofChar c :: found) rest := by
  rw [Letter.ofChar_plain fun h => h.2 (hc ▸ hn)]
  refine readString_escape ?_
  rw [he, ← hc, Char.ofNat_toNat]

/-- One character is read from its spelling. -/
theorem readString_escapeChar :
    readString found ((escapeChar c).map some ++ rest) = readString (.ofChar c :: found) rest := by
  -- By the tests of the writer: the quote, the slash, the five controls with a letter, the other
  -- controls, and whatever needs no escape.
  unfold escapeChar
  split
  case isTrue hquote =>
    subst hquote
    exact readString_escape rfl
  split
  case isTrue hslash =>
    subst hslash
    exact readString_escape rfl
  split
  case isTrue h8 => exact readString_letter h8 (by decide) rfl
  split
  case isTrue h9 => exact readString_letter h9 (by decide) rfl
  split
  case isTrue h10 => exact readString_letter h10 (by decide) rfl
  split
  case isTrue h12 => exact readString_letter h12 (by decide) rfl
  split
  case isTrue h13 => exact readString_letter h13 (by decide) rfl
  rename_i hquote hslash h8 h9 h10 h12 h13
  split
  case isTrue hcontrol =>
    have hnoLetter : c.toNat ∉ [8, 9, 10, 12, 13] := by simp [h8, h9, h10, h12, h13]
    rw [Letter.ofChar_numbered hcontrol hnoLetter, readString.eq_def]
    simp only [hex4, List.map_cons, List.map_nil, List.cons_append, List.nil_append,
      hexNumber?_control c.toNat hcontrol]
  case isFalse hcontrol =>
    rw [Letter.ofChar_plain fun h => hcontrol h.1]
    exact readString_plain hcontrol hquote hslash

theorem readString_spelled (s : List Char) :
    readString found ((s.flatMap escapeChar).map some ++ rest) =
      readString ((s.map Letter.ofChar).reverse ++ found) rest := by
  induction s generalizing found with
  | nil => rfl
  | cons c s ih =>
    rw [List.flatMap_cons, List.map_append, List.append_assoc, readString_escapeChar, ih]
    simp

/-- **A quoted text is split off as its letters.** -/
theorem readString_quoted (s : String) :
    readString [] ((s.toList.flatMap escapeChar ++ ['"']).map some ++ rest) =
      some (.ofString s, rest) := by
  rw [List.map_append, List.append_assoc, readString_spelled]
  simp [readString, Letters.ofString]

theorem readLetters_ofChar {before : List Char} {letters : Letters} :
    readLetters before (.ofChar c :: letters) = readLetters (c :: before) letters := by
  unfold Letter.ofChar
  split
  · rename_i hcontrol
    -- A number below the halves stands for itself.
    have hsecond : isSecondHalf c.toNat = false := by
      simp [isSecondHalf]
      omega
    have hfirst : isFirstHalf c.toNat = false := by
      simp [isFirstHalf]
      omega
    rw [readLetters.eq_def]
    simp [hsecond, hfirst]
  · rw [readLetters]

/-- **The letters of a text are the text.** -/
@[simp] theorem Letters.text?_ofString (s : String) : (Letters.ofString s).text? = some s := by
  have hread : ∀ (s before : List Char), readLetters before (s.map Letter.ofChar) =
      some (before.reverse ++ s) := by
    intro s
    induction s with
    | nil => simp [readLetters]
    | cons c s ih => simp [readLetters_ofChar, ih]
  rw [Letters.text?, Letters.ofString, hread]
  simp

end CachedRun.Json
