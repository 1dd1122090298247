import CachedRun.Xml.Canonical
import CachedRun.Proofs.Text.Blank
import Mathlib.Data.List.DropRight

/-!
# Numbers — decimal literals by their parts

`normalDecimal?` finds the parts of a decimal literal by cutting a text at marks. Here a `Literal` is
given by its parts, which carry what is asked of them, and its text is a function of it; so is its
normal form, which is a literal again.

The texts that have a normal form are those of literals (`exists_literal`), and **the normal form of
a literal is the text of its normal literal** (`normalDecimal?_text`). Since to normalize a literal
twice is to normalize it once, so it is for texts (`normalizeNumber_normalizeNumber`).
-/

set_option autoImplicit false

namespace CachedRun.Xml

theorem forall_isDigit {s : List Char} (h : isDigits s = true) : ∀ c ∈ s, c.isDigit = true :=
  List.all_eq_true.mp (Bool.and_eq_true_iff.mp h).2

theorem ne_nil_of_isDigits {s : List Char} (h : isDigits s = true) : s ≠ [] := by
  rintro rfl
  cases h

theorem isDigits_of_forall {s : List Char} (hne : s ≠ []) (h : ∀ c ∈ s, c.isDigit = true) :
    isDigits s = true :=
  Bool.and_eq_true_iff.mpr ⟨by simpa using hne, List.all_eq_true.mpr h⟩

theorem ne_of_isDigit {c d : Char} (hc : c.isDigit = true) (hd : d.isDigit = false) : c ≠ d := by
  rintro rfl
  rw [hc] at hd
  cases hd

/-! ## Signs -/

/-- What may stand before digits. -/
inductive Signum where
  | absent
  | plus
  | minus

namespace Signum

def text : Signum → List Char
  | absent => []
  | plus => ['+']
  | minus => ['-']

/-- A plus says nothing. -/
def normal : Signum → Signum
  | minus => minus
  | _ => absent

theorem normal_normal (sign : Signum) : sign.normal.normal = sign.normal := by
  cases sign <;> rfl

end Signum

/-- A sign is split off what begins with a digit. -/
theorem splitSign?_text (sign : Signum) {s : List Char} (hne : s ≠ [])
    (hs : ∀ c ∈ s.head?, c.isDigit = true) :
    splitSign? (sign.text ++ s) = some (sign.normal.text, s) := by
  cases sign with
  | plus | minus => rfl
  | absent =>
    obtain ⟨c, s, rfl⟩ := List.exists_cons_of_ne_nil hne
    rw [Signum.text, List.nil_append, splitSign?]
    · rfl
    · nofun
    · exact fun _ heq => ne_of_isDigit (hs c rfl) (by decide) (List.cons.inj heq).1
    · exact fun _ heq => ne_of_isDigit (hs c rfl) (by decide) (List.cons.inj heq).1

theorem exists_signum {s sign rest : List Char} (h : splitSign? s = some (sign, rest)) :
    ∃ signum : Signum, s = signum.text ++ rest := by
  unfold splitSign? at h
  split at h
  · cases h
  · cases h
    exact ⟨.minus, rfl⟩
  · cases h
    exact ⟨.plus, rfl⟩
  · cases h
    exact ⟨.absent, rfl⟩

/-! ## Exponents -/

/-- Digits without zeros before them, but one digit at least. -/
def withoutLeadingZeros (digits : List Char) : List Char :=
  match digits.dropWhile (· == '0') with
  | [] => ['0']
  | digits => digits

theorem isDigits_withoutLeadingZeros {digits : List Char} (h : isDigits digits = true) :
    isDigits (withoutLeadingZeros digits) = true := by
  unfold withoutLeadingZeros
  split
  · rfl
  · rename_i hne
    exact isDigits_of_forall hne fun c hc =>
      forall_isDigit h c ((List.dropWhile_sublist _).subset hc)

structure Exponent where
  mark : Char
  isMark : mark = 'e' ∨ mark = 'E'
  sign : Signum
  digits : List Char
  isDigits : isDigits digits = true

namespace Exponent

variable (e : Exponent)

def text : List Char := e.mark :: (e.sign.text ++ e.digits)

/-- An exponent of zero has no sign. -/
def normal : Exponent where
  mark := 'e'
  isMark := .inl rfl
  sign := if e.digits.dropWhile (· == '0') = [] then .absent else e.sign.normal
  digits := withoutLeadingZeros e.digits
  isDigits := isDigits_withoutLeadingZeros e.isDigits

theorem normal_normal : e.normal.normal = e.normal := by
  have hzeros : (withoutLeadingZeros e.digits).dropWhile (· == '0') =
      e.digits.dropWhile (· == '0') := by
    unfold withoutLeadingZeros
    split
    · rename_i hnil
      rw [hnil]
      rfl
    · exact List.dropWhile_idempotent ..
  simp only [normal, hzeros, mk.injEq, true_and]
  refine ⟨?_, by rw [withoutLeadingZeros, hzeros, ← withoutLeadingZeros]⟩
  split
  · rfl
  · exact e.sign.normal_normal

end Exponent

theorem normalExponent_map (e : Option Exponent) :
    normalExponent (e.map fun e => e.sign.text ++ e.digits) =
      some (e.elim [] fun e => e.normal.text) := by
  cases e with
  | none => rfl
  | some e =>
    have hsplit := splitSign?_text e.sign (ne_nil_of_isDigits e.isDigits) fun c hc =>
      forall_isDigit e.isDigits c (List.mem_of_head? hc)
    rw [Option.map_some, normalExponent, hsplit, Option.elim_some, Exponent.text, Exponent.normal]
    simp only [Option.bind_eq_bind, Option.bind_some, e.isDigits, if_true, withoutLeadingZeros]
    cases e.digits.dropWhile (· == '0') with
    | nil => rfl
    | cons d digits => rw [if_neg (List.cons_ne_nil d digits)]

theorem exists_exponent {mark : Char} (hmark : mark = 'e' ∨ mark = 'E') {s found : List Char}
    (h : normalExponent (some s) = some found) : ∃ e : Exponent, mark :: s = e.text := by
  obtain ⟨⟨sign, digits⟩, hsplit, hdigits⟩ := Option.bind_eq_some_iff.mp h
  obtain ⟨signum, rfl⟩ := exists_signum hsplit
  simp only at hdigits
  split at hdigits
  case isTrue hall => exact ⟨⟨mark, hmark, signum, digits, hall⟩, rfl⟩
  case isFalse => cases hdigits

/-! ## Literals -/

/-- Digits without zeros behind them, but one digit at least. -/
def withoutTrailingZeros (digits : List Char) : List Char :=
  match Text.dropEndWhile (· == '0') digits with
  | [] => ['0']
  | digits => digits

theorem forall_withoutTrailingZeros {digits : List Char} (h : digits.all Char.isDigit = true) :
    (withoutTrailingZeros digits).all Char.isDigit = true := by
  unfold withoutTrailingZeros
  split
  · rfl
  · rw [List.all_eq_true] at h ⊢
    exact fun c hc => h c ((List.rdropWhile_prefix _ _).subset hc)

theorem dropEndWhile_withoutTrailingZeros (digits : List Char) :
    Text.dropEndWhile (· == '0') (withoutTrailingZeros digits) =
      Text.dropEndWhile (· == '0') digits := by
  unfold withoutTrailingZeros
  split
  · rename_i hnil
    rw [hnil]
    rfl
  · exact List.rdropWhile_idempotent ..

theorem withoutTrailingZeros_idem (digits : List Char) :
    withoutTrailingZeros (withoutTrailingZeros digits) = withoutTrailingZeros digits := by
  rw [withoutTrailingZeros, dropEndWhile_withoutTrailingZeros, ← withoutTrailingZeros]

/-- A decimal literal: what is not an integer only. -/
structure Literal where
  sign : Signum
  whole : List Char
  isWhole : isDigits whole = true
  lean : ¬ (1 < whole.length ∧ whole.head? = some '0')
  fraction : Option (List Char)
  isFraction : ∀ f ∈ fraction, f.all Char.isDigit = true
  exponent : Option Exponent
  marked : ¬ (fraction = none ∧ exponent = none)

namespace Literal

variable (d : Literal)

def mantissa : List Char := d.whole ++ d.fraction.elim [] ('.' :: ·)

def text : List Char := d.sign.text ++ (d.mantissa ++ d.exponent.elim [] Exponent.text)

def normal : Literal where
  sign := d.sign.normal
  whole := d.whole
  isWhole := d.isWhole
  lean := d.lean
  fraction := d.fraction.map withoutTrailingZeros
  isFraction := by
    intro f hf
    obtain ⟨digits, hdigits, rfl⟩ := Option.map_eq_some_iff.mp hf
    exact forall_withoutTrailingZeros (d.isFraction digits hdigits)
  exponent := d.exponent.map Exponent.normal
  marked := by simpa using d.marked

theorem normal_normal : d.normal.normal = d.normal := by
  simp only [normal, mk.injEq, Option.map_map, true_and]
  refine ⟨d.sign.normal_normal, ?_, ?_⟩
  · exact congrArg (d.fraction.map ·) (funext withoutTrailingZeros_idem)
  · exact congrArg (d.exponent.map ·) (funext Exponent.normal_normal)

theorem ne_of_mem_mantissa {c : Char} (h : c ∈ d.mantissa) : c.isDigit = true ∨ c = '.' := by
  rw [mantissa, List.mem_append] at h
  rcases h with h | h
  · exact .inl (forall_isDigit d.isWhole c h)
  · cases hf : d.fraction with
    | none =>
      rw [hf] at h
      cases h
    | some f =>
      rw [hf] at h
      rcases List.mem_cons.mp h with h | h
      · exact .inr h
      · exact .inl (List.all_eq_true.mp (d.isFraction f hf) c h)

theorem ne_mark_of_mem_mantissa : ∀ c ∈ d.mantissa, c ≠ 'e' ∧ c ≠ 'E' := by
  intro c hc
  rcases d.ne_of_mem_mantissa hc with h | rfl
  · exact ⟨ne_of_isDigit h (by decide), ne_of_isDigit h (by decide)⟩
  · decide

theorem point_not_mem_whole : '.' ∉ d.whole :=
  fun hmem => absurd (forall_isDigit d.isWhole _ hmem) (by decide)

theorem mantissa_append_ne_nil (rest : List Char) : d.mantissa ++ rest ≠ [] := by
  simp [mantissa, ne_nil_of_isDigits d.isWhole]

/-- What stands behind the sign begins with a digit. -/
theorem isDigit_head?_mantissa (rest : List Char) :
    ∀ c ∈ (d.mantissa ++ rest).head?, c.isDigit = true := by
  obtain ⟨c, whole, hwhole⟩ := List.exists_cons_of_ne_nil (ne_nil_of_isDigits d.isWhole)
  rw [mantissa, hwhole]
  rintro _ ⟨⟩
  exact forall_isDigit d.isWhole c (hwhole ▸ List.mem_cons_self ..)

end Literal

/-! ## Reading literals

The reader splits off the sign, the exponent and the fraction, in this order. Each splits where it
should, since none of the marks is a digit. -/

theorem splitExponent_append {mantissa : List Char} (h : ∀ c ∈ mantissa, c ≠ 'e' ∧ c ≠ 'E')
    (e : Option Exponent) : splitExponent (mantissa ++ e.elim [] Exponent.text) =
      (mantissa, e.map fun e => e.sign.text ++ e.digits) := by
  have hrun : ∀ c ∈ mantissa, decide (c ≠ 'e' ∧ c ≠ 'E') = true := fun c hc => decide_eq_true (h c hc)
  have hstop : ∀ c ∈ (e.elim [] Exponent.text).head?, decide (c ≠ 'e' ∧ c ≠ 'E') = false := by
    cases e with
    | none => nofun
    | some e =>
      rintro _ ⟨⟩
      rcases e.isMark with h | h <;> rw [h] <;> rfl
  have htake := Text.takeWhile_append_of_stop hrun hstop
  have hdrop := Text.dropWhile_append_of_stop hrun hstop
  rw [splitExponent, htake, hdrop]
  cases e with
  | none => rw [Option.elim_none, List.append_nil, Option.map_none]
  | some e => rfl

theorem splitAtFirst?_append {c : Char} {s : List Char} (h : c ∉ s) (rest : List Char) :
    Text.splitAtFirst? c (s ++ c :: rest) = some (s, rest) := by
  induction s with
  | nil => exact if_pos rfl
  | cons d s ih =>
    rw [List.mem_cons, not_or] at h
    rw [List.cons_append, Text.splitAtFirst?, if_neg (Ne.symm h.1), ih h.2]
    rfl

theorem splitAtFirst?_eq_none {c : Char} {s : List Char} (h : c ∉ s) :
    Text.splitAtFirst? c s = none := by
  induction s with
  | nil => rfl
  | cons d s ih =>
    rw [List.mem_cons, not_or] at h
    rw [Text.splitAtFirst?, if_neg (Ne.symm h.1), ih h.2]
    rfl

theorem splitPoint_append {whole : List Char} (h : '.' ∉ whole) (fraction : Option (List Char)) :
    splitPoint (whole ++ fraction.elim [] ('.' :: ·)) = (whole, fraction) := by
  cases fraction with
  | none => rw [Option.elim_none, List.append_nil, splitPoint, splitAtFirst?_eq_none h]
  | some f => rw [Option.elim_some, splitPoint, splitAtFirst?_append h]

theorem normalFraction_eq {fraction : Option (List Char)}
    (h : ∀ f ∈ fraction, f.all Char.isDigit = true) :
    normalFraction fraction = some (fraction.elim [] fun f => '.' :: withoutTrailingZeros f) := by
  cases fraction with
  | none => rfl
  | some f =>
    rw [normalFraction, if_pos (h f rfl), Option.elim_some, withoutTrailingZeros]
    cases Text.dropEndWhile (· == '0') f <;> rfl

/-- **A literal is read** by its parts, and written by those of its normal form. -/
theorem normalDecimal?_text (d : Literal) : normalDecimal? d.text = some d.normal.text := by
  have hsign : splitSign? d.text =
      some (d.sign.normal.text, d.mantissa ++ d.exponent.elim [] Exponent.text) :=
    splitSign?_text d.sign (d.mantissa_append_ne_nil _) (d.isDigit_head?_mantissa _)
  have hlean : (!isDigits d.whole || (decide (1 < d.whole.length) && d.whole.head? == some '0')) =
      false := by
    rw [d.isWhole, Bool.not_true, Bool.false_or, ← Bool.not_eq_true, Bool.and_eq_true,
      decide_eq_true_eq, beq_iff_eq]
    exact d.lean
  rw [normalDecimal?, hsign]
  simp only [Option.bind_eq_bind, Option.bind_some, splitExponent_append d.ne_mark_of_mem_mantissa]
  simp only [Literal.mantissa, splitPoint_append d.point_not_mem_whole, Option.map_eq_none_iff,
    d.marked, if_false, hlean, normalFraction_eq d.isFraction, normalExponent_map, Option.bind_some]
  rw [if_neg Bool.false_ne_true, Literal.text, Literal.mantissa, Literal.normal]
  simp [Option.elim_map, Function.comp_def]

/-! ## Texts that are literals

The other direction: what the reader accepts was written as a literal, whose parts are those that
were split off. -/

theorem exists_of_splitExponent {s mantissa : List Char} {exponent : Option (List Char)}
    {found : List Char} (h : splitExponent s = (mantissa, exponent))
    (hexponent : normalExponent exponent = some found) :
    ∃ e : Option Exponent, s = mantissa ++ e.elim [] Exponent.text ∧
      (e = none → exponent = none) := by
  have hcut := List.takeWhile_append_dropWhile (p := fun c => decide (c ≠ 'e' ∧ c ≠ 'E')) (l := s)
  unfold splitExponent at h
  split at h
  · cases h
    exact ⟨none, (List.append_nil _).symm, fun _ => rfl⟩
  · rename_i mark rest hdrop
    cases h
    have hmark : mark = 'e' ∨ mark = 'E' := by
      have hstop := List.head?_dropWhile_not (fun c => decide (c ≠ 'e' ∧ c ≠ 'E')) s
      rw [hdrop] at hstop
      simpa [or_iff_not_imp_left] using hstop
    obtain ⟨e, he⟩ := exists_exponent hmark hexponent
    rw [hdrop, he] at hcut
    exact ⟨some e, hcut.symm, nofun⟩

theorem eq_of_splitAtFirst? {c : Char} {s whole rest : List Char}
    (h : Text.splitAtFirst? c s = some (whole, rest)) : s = whole ++ c :: rest := by
  induction s generalizing whole rest with
  | nil => cases h
  | cons d s ih =>
    rw [Text.splitAtFirst?] at h
    split at h
    · rename_i hd
      cases h
      rw [hd, List.nil_append]
    · obtain ⟨⟨before, after⟩, hsplit, heq⟩ := Option.map_eq_some_iff.mp h
      cases heq
      rw [ih hsplit, List.cons_append]

theorem eq_of_splitPoint {s whole : List Char} {fraction : Option (List Char)}
    (h : splitPoint s = (whole, fraction)) : s = whole ++ fraction.elim [] ('.' :: ·) := by
  unfold splitPoint at h
  split at h
  · rename_i hsplit
    cases h
    exact eq_of_splitAtFirst? hsplit
  · cases h
    exact (List.append_nil _).symm

theorem isDigit_of_normalFraction {fraction : Option (List Char)} {found : List Char}
    (h : normalFraction fraction = some found) : ∀ f ∈ fraction, f.all Char.isDigit = true := by
  rintro f rfl
  rw [normalFraction] at h
  split at h
  · assumption
  · cases h

/-- **What has a normal form is a literal.** -/
theorem exists_literal {s found : List Char} (h : normalDecimal? s = some found) :
    ∃ d : Literal, s = d.text := by
  obtain ⟨⟨sign, unsigned⟩, hsign, hparts⟩ := Option.bind_eq_some_iff.mp h
  obtain ⟨signum, rfl⟩ := exists_signum hsign
  cases hexponent : splitExponent unsigned with
  | mk mantissa exponent =>
  cases hpoint : splitPoint mantissa with
  | mk whole fraction =>
  simp only [hexponent, hpoint] at hparts
  -- Two tests are passed: a point or an exponent marks the number, and its whole part is digits.
  split at hparts
  case isTrue => cases hparts
  case isFalse hmarked =>
  split at hparts
  case isTrue => cases hparts
  case isFalse hwhole =>
  obtain ⟨_, hfraction, hparts⟩ := Option.bind_eq_some_iff.mp hparts
  obtain ⟨_, hexponentText, -⟩ := Option.bind_eq_some_iff.mp hparts
  obtain ⟨e, rfl, he⟩ := exists_of_splitExponent hexponent hexponentText
  rw [Bool.or_eq_true, Bool.and_eq_true, Bool.not_eq_true', decide_eq_true_eq, beq_iff_eq, not_or,
    Bool.not_eq_false] at hwhole
  refine ⟨⟨signum, whole, hwhole.1, hwhole.2, fraction, isDigit_of_normalFraction hfraction, e,
    fun hnone => hmarked ⟨hnone.1, he hnone.2⟩⟩, ?_⟩
  rw [eq_of_splitPoint hpoint]
  rfl

/-! ## Normal forms

A normal form is a literal again, and one that is its own normal form. So to normalize twice is to
normalize once. -/

/-- **A normal form is its own.** -/
theorem normalizeNumber_normalizeNumber (s : List Char) :
    normalizeNumber (normalizeNumber s) = normalizeNumber s := by
  cases h : normalDecimal? s with
  | none => simp only [normalizeNumber, h, Option.getD_none]
  | some found =>
    obtain ⟨d, rfl⟩ := exists_literal h
    simp only [normalizeNumber, normalDecimal?_text, Option.getD_some, d.normal_normal]

theorem Literal.text_ne_nil (d : Literal) : d.text ≠ [] := by
  have hwhole := ne_nil_of_isDigits d.isWhole
  simp [text, mantissa, hwhole]

theorem normalizeNumber_ne_nil {s : List Char} (h : s ≠ []) : normalizeNumber s ≠ [] := by
  cases hnormal : normalDecimal? s with
  | none => rwa [normalizeNumber, hnormal]
  | some found =>
    obtain ⟨d, rfl⟩ := exists_literal hnormal
    rw [normalizeNumber, normalDecimal?_text]
    exact d.normal.text_ne_nil

theorem Literal.not_isBlank (d : Literal) : ∀ c ∈ d.text, Text.isBlank c = false := by
  intro c hc
  have hsign : ∀ sign : Signum, c ∈ sign.text → Text.isBlank c = false := by
    rintro (_ | _ | _) hmem
    · cases hmem
    · rw [List.mem_singleton.mp hmem]
      rfl
    · rw [List.mem_singleton.mp hmem]
      rfl
  rw [text, List.mem_append, List.mem_append] at hc
  -- In turn: the sign, the digits with their point, and the exponent if there is one.
  rcases hc with hc | hc | hc
  · exact hsign d.sign hc
  · rcases d.ne_of_mem_mantissa hc with h | rfl
    · exact Text.isBlank_of_isDigit h
    · rfl
  · cases hexponent : d.exponent with
    | none =>
      rw [hexponent] at hc
      cases hc
    | some e =>
      rw [hexponent, Option.elim_some, Exponent.text, List.mem_cons, List.mem_append] at hc
      rcases hc with rfl | hc | hc
      · rcases e.isMark with h | h <;> rw [h] <;> rfl
      · exact hsign e.sign hc
      · exact Text.isBlank_of_isDigit (forall_isDigit e.isDigits c hc)

/-- A normal form has blanks only if the text is no literal. -/
theorem normalizeNumber_of_isBlank {s : List Char} {c : Char} (hc : c ∈ s ∨ c ∈ normalizeNumber s)
    (hblank : Text.isBlank c = true) : normalizeNumber s = s := by
  cases h : normalDecimal? s with
  | none => rw [normalizeNumber, h, Option.getD_none]
  | some found =>
    obtain ⟨d, rfl⟩ := exists_literal h
    rw [normalizeNumber, normalDecimal?_text, Option.getD_some] at hc
    have hnone := hc.elim (d.not_isBlank c) (d.normal.not_isBlank c)
    rw [hnone] at hblank
    cases hblank

/-! ## Normalizing on request -/

section Request

variable {numbers : Bool} {s : List Char}

theorem normalized_nil : normalized numbers [] = [] := by cases numbers <;> rfl

theorem normalized_ne_nil (h : s ≠ []) : normalized numbers s ≠ [] := by
  cases numbers with
  | false => exact h
  | true => exact normalizeNumber_ne_nil h

theorem normalized_normalized : normalized numbers (normalized numbers s) = normalized numbers s := by
  cases numbers with
  | false => rfl
  | true => exact normalizeNumber_normalizeNumber s

theorem normalized_of_isBlank {c : Char} (hc : c ∈ s ∨ c ∈ normalized numbers s)
    (hblank : Text.isBlank c = true) : normalized numbers s = s := by
  cases numbers with
  | false => rfl
  | true => exact normalizeNumber_of_isBlank hc hblank

theorem trimmed_normalized (h : Text.Trimmed s) : Text.Trimmed (normalized numbers s) := by
  constructor
  · intro c hc
    by_contra hblank
    rw [normalized_of_isBlank (.inr (List.mem_of_head? hc)) (by simpa using hblank)] at hc
    exact hblank (h.first c hc)
  · intro c hc
    by_contra hblank
    rw [normalized_of_isBlank (.inr (List.mem_of_getLast? hc)) (by simpa using hblank)] at hc
    exact hblank (h.last c hc)

/-- Normalizing puts no blanks in. -/
theorem countP_normalized_le :
    (normalized numbers s).countP Text.isBlank ≤ s.countP Text.isBlank := by
  by_cases hblank : ∃ c ∈ normalized numbers s, Text.isBlank c = true
  · obtain ⟨c, hc, hblank⟩ := hblank
    rw [normalized_of_isBlank (.inr hc) hblank]
  · have hzero : (normalized numbers s).countP Text.isBlank = 0 :=
      List.countP_eq_zero.mpr fun c hc h => hblank ⟨c, hc, h⟩
    omega

end Request

end CachedRun.Xml
