import CachedRun.Xml.Token
import CachedRun.Xml.Escape
import CachedRun.Proofs.Text.Blank
import CachedRun.Proofs.Decimal.Digits
import Mathlib.Data.List.Induction

/-!
# Spellings — the ways to write a character

Between tags and in attributes a character may stand for itself, be named, or be given by its number
in one of two bases. `Spelling` is that grammar, and a `Sign` is a character together with one of its
spellings. **Whatever the spelling, resolving gives the character back** (`unescape_spelled`), and
escaping is one way to spell (`spelling_escapeChar`).

Resolving comes after the lexer has taken the blanks off the ends of a text, so what it finds is not
the whole text. It is the same once both are trimmed (`unescape_trimSpace`): a blank at an end of the
text is no part of a reference. Nor is a reference lost when a text is cut, if the first part is
`Whole`: each part is resolved on its own (`exists_unescape_append`).
-/

set_option autoImplicit false

namespace CachedRun.Xml

/-! ## References

The grammar of what stands for a character. A character that has no other meaning stands for
itself. The null character is the one that cannot be written by its number. -/

/-- The characters that have a name. -/
def namedChars : List (Char × List Char) :=
  [('<', ['l', 't']), ('>', ['g', 't']), ('&', ['a', 'm', 'p']), ('\'', ['a', 'p', 'o', 's']),
    ('"', ['q', 'u', 'o', 't'])]

/-- A hexadecimal digit in one of its two forms. -/
def hexChar (capital : Bool) (digit : Fin 16) : Char :=
  if capital then (Nat.digitChar digit).toUpper else Nat.digitChar digit

/-- The number that hexadecimal digits stand for. -/
def hexValue (digits : List (Bool × Fin 16)) : Nat := digits.foldl (fun n d => n * 16 + d.2) 0

def reference (name : List Char) : List Char := '&' :: (name ++ [';'])

/-- How a character may be written in character data. -/
inductive Spelling : Char → List Char → Prop
  | plain {c : Char} (hopen : c ≠ '<') (href : c ≠ '&') : Spelling c [c]
  | named {c : Char} {name : List Char} (h : (c, name) ∈ namedChars) :
      Spelling c (reference name)
  | decimal {c : Char} {digits : List Char} (hne : digits ≠ [])
      (hdigits : ∀ d ∈ digits, d.isDigit = true) (hvalue : Decimal.value digits = c.toNat)
      (hnull : c ≠ '\x00') : Spelling c (reference ('#' :: digits))
  | hexadecimal {c : Char} {digits : List (Bool × Fin 16)} (hne : digits ≠ [])
      (hvalue : hexValue digits = c.toNat) (hnull : c ≠ '\x00') :
      Spelling c (reference ('#' :: 'x' :: digits.map fun d => hexChar d.1 d.2))

/-- A character as it is written. -/
structure Sign where
  char : Char
  spelling : List Char
  spells : Spelling char spelling

/-- The text of some signs. -/
def spelled (signs : List Sign) : List Char := signs.flatMap Sign.spelling

/-! ## Numbers -/

theorem charOf?_toNat {c : Char} (h : c ≠ '\x00') : charOf? c.toNat = some c := by
  have hne : c.toNat ≠ 0 := by
    intro hzero
    exact h (Char.ofNat_toNat c ▸ hzero ▸ rfl)
  rw [charOf?, if_pos ⟨hne, c.valid⟩, Char.ofNat_toNat]

/-- A number is read by the value of its digits. -/
theorem number?_map {α : Type} {base : Nat} {digit? : Char → Option Nat} {write : α → Char}
    {value : α → Nat} {digits : List α} (hne : digits ≠ [])
    (hdigits : ∀ d ∈ digits, digit? (write d) = some (value d)) :
    number? base digit? (digits.map write) =
      some (digits.foldl (fun n d => n * base + value d) 0) := by
  have hfold : ∀ n, (digits.map write).foldlM (fun n c => (digit? c).map (n * base + ·)) n =
      some (digits.foldl (fun n d => n * base + value d) n) := by
    clear hne
    induction digits with
    | nil => intro n; rfl
    | cons d digits ih =>
      intro n
      rw [List.forall_mem_cons] at hdigits
      rw [List.map_cons, List.foldlM_cons, hdigits.1]
      exact ih hdigits.2 _
  rw [number?, if_neg (by simpa using hne), hfold]

theorem hexDigit?_hexChar : ∀ capital digit, hexDigit? (hexChar capital digit) = some digit.val := by
  decide

theorem hexChar_ne : ∀ capital digit, hexChar capital digit ≠ ';' ∧ hexChar capital digit ≠ '&' ∧
    hexChar capital digit ≠ '<' := by
  decide

theorem resolve?_decimal {c : Char} {digits : List Char} (hne : digits ≠ [])
    (hdigits : ∀ d ∈ digits, d.isDigit = true) (hvalue : Decimal.value digits = c.toNat)
    (hnull : c ≠ '\x00') : resolve? ('#' :: digits) = some c := by
  have hnumber : number? 10 Decimal.digit? digits = some c.toNat := by
    have hdigit : ∀ d ∈ digits, Decimal.digit? (id d) = some (d.toNat - '0'.toNat) :=
      fun d hd => if_pos (hdigits d hd)
    have hnumber : number? 10 Decimal.digit? (digits.map id) = _ := number?_map hne hdigit
    rw [List.map_id] at hnumber
    rw [hnumber, ← hvalue, Decimal.value]
  -- A hexadecimal number has an `x` where this one has a digit.
  obtain ⟨d, rest, rfl⟩ := List.exists_cons_of_ne_nil hne
  have hx : d ≠ 'x' := by
    rintro rfl
    exact absurd (hdigits _ (List.mem_cons_self ..)) (by decide)
  rw [resolve?, hnumber, Option.bind_some, charOf?_toNat hnull]
  rintro digits ⟨⟩
  exact hx rfl

theorem resolve?_hexadecimal {c : Char} {digits : List (Bool × Fin 16)} (hne : digits ≠ [])
    (hvalue : hexValue digits = c.toNat) (hnull : c ≠ '\x00') :
    resolve? ('#' :: 'x' :: digits.map fun d => hexChar d.1 d.2) = some c := by
  rw [resolve?, number?_map hne fun d _ => hexDigit?_hexChar d.1 d.2, Option.bind_some, ← hexValue,
    hvalue, charOf?_toNat hnull]

theorem resolve?_named : ∀ e ∈ namedChars, resolve? e.2 = some e.1 := by decide

theorem isDigit_ne {d : Char} (h : d.isDigit = true) : d ≠ ';' ∧ d ≠ '&' ∧ d ≠ '<' := by
  refine ⟨?_, ?_, ?_⟩ <;> rintro rfl <;> cases h

theorem named_ne : ∀ e ∈ namedChars, ∀ x ∈ e.2, x ≠ ';' ∧ x ≠ '&' ∧ x ≠ '<' := by
  simp [namedChars]

/-- Every reference has a name, which is free of marks. -/
theorem Spelling.exists_name {c : Char} {spelling : List Char} (h : Spelling c spelling) :
    spelling = [c] ∧ c ≠ '<' ∧ c ≠ '&' ∨ ∃ name, spelling = reference name ∧
      resolve? name = some c ∧ ∀ x ∈ name, x ≠ ';' ∧ x ≠ '&' ∧ x ≠ '<' := by
  cases h with
  | plain hopen href => exact .inl ⟨rfl, hopen, href⟩
  | named h => exact .inr ⟨_, rfl, resolve?_named _ h, named_ne _ h⟩
  | @decimal digits hne hdigits hvalue hnull =>
    refine .inr ⟨_, rfl, resolve?_decimal hne hdigits hvalue hnull, ?_⟩
    rw [List.forall_mem_cons]
    exact ⟨by decide, fun d hd => isDigit_ne (hdigits d hd)⟩
  | @hexadecimal digits hne hvalue hnull =>
    refine .inr ⟨_, rfl, resolve?_hexadecimal hne hvalue hnull, ?_⟩
    rw [List.forall_mem_cons, List.forall_mem_cons]
    refine ⟨by decide, by decide, fun x hx => ?_⟩
    obtain ⟨d, -, rfl⟩ := List.mem_map.mp hx
    exact hexChar_ne d.1 d.2

/-- Character data opens no markup. -/
theorem not_mem_spelled {signs : List Sign} : '<' ∉ spelled signs := by
  intro hmem
  obtain ⟨sign, -, hmem⟩ := List.mem_flatMap.mp hmem
  rcases sign.spells.exists_name with ⟨heq, hopen, -⟩ | ⟨name, heq, -, hname⟩
  · rw [heq, List.mem_singleton] at hmem
    exact hopen hmem.symm
  · rw [heq, reference] at hmem
    simp only [List.mem_cons, List.mem_append, List.not_mem_nil, or_false] at hmem
    rcases hmem with hmem | hmem | hmem
    · cases hmem
    · exact (hname _ hmem).2.2 rfl
    · cases hmem

/-- Character data begins with a reference or with a character of its own. -/
theorem head_spelled {signs : List Sign} {c : Char} (h : (spelled signs).head? = some c) :
    c = '&' ∨ c ∈ signs.map Sign.char := by
  cases signs with
  | nil => cases h
  | cons sign signs =>
    rw [spelled, List.flatMap_cons] at h
    rcases sign.spells.exists_name with ⟨heq, -⟩ | ⟨name, heq, -⟩
    · rw [heq] at h
      cases h
      exact .inr (List.mem_cons_self ..)
    · rw [heq] at h
      cases h
      exact .inl rfl

/-! ## Resolving

The reader keeps the name of a reference that is open. A name holds neither of the two characters
that bound it, so a reference is read to its end, and reading goes on behind it as at the
beginning. -/

theorem unescapeFrom_name {name rest acc : List Char} (h : ∀ x ∈ name, x ≠ ';' ∧ x ≠ '&') :
    unescapeFrom (some acc) (name ++ ';' :: rest) =
      (resolve? (acc.reverse ++ name)).bind fun c => (unescapeFrom none rest).map (c :: ·) := by
  induction name generalizing acc with
  | nil =>
    simp only [List.nil_append, List.append_nil, unescapeFrom, Option.map_eq_bind]
    rfl
  | cons x name ih =>
    rw [List.forall_mem_cons] at h
    rw [List.cons_append, unescapeFrom, if_neg h.1.1, if_neg h.1.2, ih h.2]
    simp

/-- **One sign** stands for its character. -/
theorem unescapeFrom_spelling {c : Char} {spelling : List Char} (h : Spelling c spelling)
    (rest : List Char) :
    unescapeFrom none (spelling ++ rest) = (unescapeFrom none rest).map (c :: ·) := by
  rcases h.exists_name with ⟨rfl, -, href⟩ | ⟨name, rfl, hresolved, hname⟩
  · rw [List.singleton_append, unescapeFrom, if_neg href]
  · rw [reference, List.cons_append, List.append_assoc, List.singleton_append, unescapeFrom,
      if_pos rfl, unescapeFrom_name fun x hx => ⟨(hname x hx).1, (hname x hx).2.1⟩,
      List.reverse_nil, List.nil_append, hresolved, Option.bind_some]

/-- **What is spelled is resolved to its characters.** -/
theorem unescape_spelled (signs : List Sign) :
    unescape (spelled signs) = some (signs.map Sign.char) := by
  induction signs with
  | nil => rfl
  | cons sign signs ih =>
    rw [unescape, spelled] at ih
    rw [unescape, spelled, List.flatMap_cons, unescapeFrom_spelling sign.spells, ih]
    rfl

/-! ## Parts of a text

A document may be cut between two texts, and each of them is resolved on its own. That gives the
same as long as no reference is cut. -/

/-- Behind a part that is resolved the rest is resolved on its own. A part that is resolved leaves
no reference open, so the rest begins outside of one. -/
theorem unescapeFrom_append {name : Option (List Char)} {s t found : List Char}
    (h : unescapeFrom name s = some found) :
    unescapeFrom name (s ++ t) = (unescape t).map (found ++ ·) := by
  induction s generalizing name found with
  | nil =>
    cases name with
    | none =>
      cases h
      simp [unescape]
    | some name => cases h
  | cons c s ih =>
    cases name with
    | none =>
      rw [unescapeFrom] at h
      rw [List.cons_append, unescapeFrom]
      split at h
      case isTrue hc => rw [if_pos hc, ih h]
      case isFalse hc =>
        obtain ⟨found, hfound, rfl⟩ := Option.map_eq_some_iff.mp h
        rw [if_neg hc, ih hfound, Option.map_map]
        rfl
    | some name =>
      rw [unescapeFrom] at h
      rw [List.cons_append, unescapeFrom]
      split at h
      -- The reference ends here, and behind its character the part goes on outside of it.
      case isTrue hc =>
        obtain ⟨resolved, hresolved, h⟩ := Option.bind_eq_some_iff.mp h
        obtain ⟨after, hafter, heq⟩ := Option.bind_eq_some_iff.mp h
        cases heq
        simp only [if_pos hc, hresolved, Option.bind_eq_bind, Option.bind_some, ih hafter]
        cases unescape t <;> rfl
      case isFalse hc =>
        split at h
        case isTrue => cases h
        case isFalse href => rw [if_neg hc, if_neg href, ih h]

/-- **Parts that are resolved** are resolved side by side. -/
theorem unescape_append {s t found : List Char} (h : unescape s = some found) :
    unescape (s ++ t) = (unescape t).map (found ++ ·) := unescapeFrom_append h

theorem unescape_of_not_mem {s : List Char} (h : '&' ∉ s) : unescape s = some s := by
  induction s with
  | nil => rfl
  | cons c s ih =>
    rw [List.mem_cons, not_or] at h
    rw [unescape] at ih
    rw [unescape, unescapeFrom, if_neg (Ne.symm h.1), ih h.2]
    rfl

/-- What ends behind every reference that it begins. -/
def Whole (s : List Char) : Prop := ∀ before name, s = before ++ '&' :: name → ';' ∈ name

theorem whole_of_not_mem {s : List Char} (h : '&' ∉ s) : Whole s := by
  rintro before name rfl
  exact absurd (List.mem_append_right _ (List.mem_cons_self ..)) h

theorem Whole.tail {c : Char} {s : List Char} (h : Whole (c :: s)) : Whole s :=
  fun before name heq => h (c :: before) name (by rw [heq]; rfl)

/-- A whole part of a text that is resolved is resolved. -/
theorem exists_unescapeFrom {name : Option (List Char)} {s t found : List Char} (hwhole : Whole s)
    (hname : name ≠ none → ';' ∈ s) (h : unescapeFrom name (s ++ t) = some found) :
    ∃ part, unescapeFrom name s = some part := by
  induction s generalizing name found with
  | nil =>
    cases name with
    | none => exact ⟨[], rfl⟩
    | some name => cases hname nofun
  | cons c s ih =>
    cases name with
    | none =>
      rw [List.cons_append, unescapeFrom] at h
      rw [unescapeFrom]
      split at h
      case isTrue hc =>
        -- A reference begins here. The part is whole, so the reference ends in it.
        rw [if_pos hc]
        exact ih hwhole.tail (fun _ => hwhole [] s (by rw [hc]; rfl)) h
      case isFalse hc =>
        obtain ⟨found, hfound, -⟩ := Option.map_eq_some_iff.mp h
        obtain ⟨part, hpart⟩ := ih hwhole.tail (fun hne => absurd rfl hne) hfound
        exact ⟨c :: part, by rw [if_neg hc, hpart]; rfl⟩
    | some name =>
      rw [List.cons_append, unescapeFrom] at h
      rw [unescapeFrom]
      split at h
      case isTrue hc =>
        obtain ⟨resolved, hresolved, h⟩ := Option.bind_eq_some_iff.mp h
        obtain ⟨after, hafter, -⟩ := Option.bind_eq_some_iff.mp h
        obtain ⟨part, hpart⟩ := ih hwhole.tail (fun hne => absurd rfl hne) hafter
        exact ⟨resolved :: part, by rw [if_pos hc, hresolved, hpart]; rfl⟩
      case isFalse hc =>
        split at h
        case isTrue => cases h
        case isFalse href =>
          -- It goes on, and its end is still to come in the part.
          rw [if_neg hc, if_neg href]
          exact ih hwhole.tail (fun _ => List.mem_of_ne_of_mem (Ne.symm hc) (hname nofun)) h

/-- **A text that is resolved** is resolved in two parts, if no reference is cut. -/
theorem exists_unescape_append {s t found : List Char} (hwhole : Whole s)
    (h : unescape (s ++ t) = some found) :
    ∃ l r, unescape s = some l ∧ unescape t = some r ∧ found = l ++ r := by
  obtain ⟨l, hl⟩ := exists_unescapeFrom hwhole (fun hne => absurd rfl hne) h
  rw [unescape_append hl] at h
  obtain ⟨r, hr, rfl⟩ := Option.map_eq_some_iff.mp h
  exact ⟨l, r, hl, hr, rfl⟩

/-! ## Escaping -/

theorem spelling_escapeChar (c : Char) : Spelling c (escapeChar c) := by
  unfold escapeChar
  split
  case isTrue h => exact h ▸ @Spelling.named _ ['l', 't'] (by decide)
  case isFalse hopen =>
    split
    case isTrue h => exact h ▸ @Spelling.named _ ['g', 't'] (by decide)
    split
    case isTrue h => exact h ▸ @Spelling.named _ ['a', 'm', 'p'] (by decide)
    case isFalse href =>
      split
      case isTrue h => exact h ▸ @Spelling.named _ ['a', 'p', 'o', 's'] (by decide)
      split
      case isTrue h => exact h ▸ @Spelling.named _ ['q', 'u', 'o', 't'] (by decide)
      exact .plain hopen href

theorem escape_append (s t : List Char) : escape (s ++ t) = escape s ++ escape t :=
  List.flatMap_append

/-- A character as it is escaped. -/
def Sign.escaped (c : Char) : Sign := ⟨c, escapeChar c, spelling_escapeChar c⟩

theorem escape_eq_spelled (s : List Char) : escape s = spelled (s.map Sign.escaped) := by
  rw [escape, spelled, List.flatMap_map]
  rfl

/-- **What is escaped is resolved to itself.** -/
theorem unescape_escape (s : List Char) : unescape (escape s) = some s := by
  have hchars : Sign.char ∘ Sign.escaped = id := rfl
  rw [escape_eq_spelled, unescape_spelled, List.map_map, hchars, List.map_id]

theorem escape_inj {s t : List Char} (h : escape s = escape t) : s = t := by
  have hresolved := congrArg unescape h
  rw [unescape_escape, unescape_escape] at hresolved
  exact Option.some.inj hresolved

theorem not_mem_escapeChar (c : Char) : '>' ∉ escapeChar c ∧ '"' ∉ escapeChar c := by
  unfold escapeChar
  split
  case isTrue => decide
  split
  case isTrue => decide
  split
  case isTrue => decide
  split
  case isTrue => decide
  split
  case isTrue => decide
  rename_i hclose _ _ hquote
  rw [List.mem_singleton, List.mem_singleton]
  exact ⟨Ne.symm hclose, Ne.symm hquote⟩

/-- What is escaped ends no tag and no value. -/
theorem not_mem_escape {s : List Char} : '>' ∉ escape s ∧ '"' ∉ escape s := by
  constructor <;> intro hmem <;> obtain ⟨c, -, hc⟩ := List.mem_flatMap.mp hmem
  · exact (not_mem_escapeChar c).1 hc
  · exact (not_mem_escapeChar c).2 hc

/-! ## Blanks at the ends

The lexer takes blanks off a text before it is resolved, and more kinds of them are taken off
afterwards. A blank at an end is no part of a reference, so the first of the two takes nothing away
that would be left. -/

theorem isBlank_of_isSpace {c : Char} (h : isSpace c = true) : Text.isBlank c = true := by
  simp only [isSpace, Bool.or_eq_true, beq_iff_eq] at h
  rcases h with ((rfl | rfl) | rfl) | rfl <;> rfl

theorem unescapeFrom_concat {c : Char} (hend : c ≠ ';') (href : c ≠ '&') (s : List Char) :
    ∀ name, unescapeFrom name (s ++ [c]) = (unescapeFrom name s).map (· ++ [c]) := by
  induction s with
  | nil => intro name; cases name <;> simp [unescapeFrom, hend, href]
  | cons a s ih =>
    intro name
    cases name with
    | none =>
      rw [List.cons_append, unescapeFrom, unescapeFrom]
      split <;> simp [ih, Function.comp_def]
    | some name =>
      rw [List.cons_append, unescapeFrom, unescapeFrom]
      split
      · cases resolve? name.reverse with
        | none => rfl
        | some c => cases h : unescapeFrom none s <;> simp [ih, h]
      · split
        · rfl
        · exact ih _

theorem exists_unescape_dropSpace {s found : List Char} (h : unescape s = some found) :
    ∃ pre rest, found = pre ++ rest ∧ pre.all Text.isBlank = true ∧
      unescape (s.dropWhile isSpace) = some rest := by
  induction s generalizing found with
  | nil => exact ⟨[], found, rfl, rfl, h⟩
  | cons c s ih =>
    cases hc : isSpace c with
    | false =>
      rw [List.dropWhile_cons_of_neg (by simp [hc])]
      exact ⟨[], found, rfl, rfl, h⟩
    | true =>
      have href : c ≠ '&' := by
        rintro rfl
        cases hc
      rw [unescape, unescapeFrom, if_neg href] at h
      obtain ⟨found, hfound, rfl⟩ := Option.map_eq_some_iff.mp h
      obtain ⟨pre, rest, rfl, hpre, hrest⟩ := ih hfound
      refine ⟨c :: pre, rest, rfl, ?_, ?_⟩
      · rw [List.all_cons, isBlank_of_isSpace hc, hpre, Bool.and_self]
      · rw [List.dropWhile_cons_of_pos hc, hrest]

theorem exists_unescape_dropEndSpace {s found : List Char} (h : unescape s = some found) :
    ∃ rest post, found = rest ++ post ∧ post.all Text.isBlank = true ∧
      unescape (Text.dropEndWhile isSpace s) = some rest := by
  induction s using List.reverseRecOn generalizing found with
  | nil => exact ⟨found, [], (List.append_nil _).symm, rfl, h⟩
  | append_singleton s c ih =>
    cases hc : isSpace c with
    | false =>
      have hsame : Text.dropEndWhile isSpace (s ++ [c]) = s ++ [c] := by
        simp [Text.dropEndWhile, hc]
      rw [hsame]
      exact ⟨found, [], (List.append_nil _).symm, rfl, h⟩
    | true =>
      have hmark : c ≠ ';' ∧ c ≠ '&' := by constructor <;> rintro rfl <;> cases hc
      rw [unescape, unescapeFrom_concat hmark.1 hmark.2] at h
      obtain ⟨found, hfound, rfl⟩ := Option.map_eq_some_iff.mp h
      obtain ⟨rest, post, rfl, hpost, hrest⟩ := ih hfound
      refine ⟨rest, post ++ [c], List.append_assoc .., ?_, ?_⟩
      · rw [List.all_append, hpost, List.all_cons, isBlank_of_isSpace hc]
        rfl
      · rw [Text.dropEndWhile_append (by simp [hc]), hrest]

/-- **A text may be trimmed before it is resolved**, if what is resolved is trimmed. -/
theorem unescape_trimSpace {s found : List Char} (h : unescape s = some found) :
    ∃ inner, unescape (trimSpace s) = some inner ∧ Text.trim inner = Text.trim found := by
  obtain ⟨pre, middle, rfl, hpre, hmiddle⟩ := exists_unescape_dropSpace h
  obtain ⟨inner, post, rfl, hpost, hinner⟩ := exists_unescape_dropEndSpace hmiddle
  refine ⟨inner, hinner, ?_⟩
  rw [Text.trim_append_left hpre, Text.trim_append_right hpost]

theorem not_mem_of_all_isSpace {s : List Char} (h : s.all isSpace = true) : '&' ∉ s :=
  fun hmem => absurd (List.all_eq_true.mp h _ hmem) (by decide)

/-- What is resolved once it is trimmed is resolved before. -/
theorem exists_unescape_of_trimSpace {s inner : List Char} (h : unescape (trimSpace s) = some inner) :
    ∃ found, unescape s = some found ∧ Text.trim inner = Text.trim found := by
  obtain ⟨post, hpost, hblank⟩ := Text.exists_dropEndWhile isSpace (s.dropWhile isSpace)
  have hs : s.takeWhile isSpace ++ (trimSpace s ++ post) = s := by
    rw [trimSpace, ← hpost, List.takeWhile_append_dropWhile]
  have hpre := unescape_of_not_mem (not_mem_of_all_isSpace (List.all_takeWhile (p := isSpace) (l := s)))
  have hfound := unescape_append (t := trimSpace s ++ post) hpre
  rw [hs, unescape_append h, unescape_of_not_mem (not_mem_of_all_isSpace hblank), Option.map_some,
    Option.map_some] at hfound
  refine ⟨_, hfound, ?_⟩
  obtain ⟨inner', hinner, htrim⟩ := unescape_trimSpace hfound
  rw [h] at hinner
  cases hinner
  exact htrim

end CachedRun.Xml
