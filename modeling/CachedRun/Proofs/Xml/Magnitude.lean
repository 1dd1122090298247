import CachedRun.Proofs.Decimal.Digits
import CachedRun.Proofs.Xml.Number
import Mathlib.Algebra.Order.Field.Rat
import Mathlib.Tactic.FieldSimp
import Mathlib.Tactic.NormNum
import Mathlib.Tactic.Ring

/-!
# Magnitudes — which texts are one number

Inside XML a program may write one magnitude in many ways, and a key must not tell them apart; but it
must tell apart all that is not the same. Two literals are merged exactly if they are `Alike`, which
is said of their parts: a plus sign, zeros behind the fraction and zeros before the exponent do not
count, and everything else does, the point and the mark of the exponent too.

A text is that of one literal at most (`Literal.text_injective`), so it denotes at most one number,
and literals that are alike denote the same (`Literal.Alike.value_eq`). Together with `exists_literal`
this makes **the normal form exact** (`normalizeNumber_exact`).
-/

set_option autoImplicit false

namespace CachedRun.Xml

open Decimal (zeros value digitsText)

/-! ## Zeros -/

theorem eq_zeros_of_forall {s : List Char} (h : ∀ c ∈ s, (c == '0') = true) :
    s = zeros s.length :=
  List.eq_replicate_iff.mpr ⟨rfl, fun c hc => beq_iff_eq.mp (h c hc)⟩

/-- **Digits without zeros before them are those of their number.** -/
theorem withoutLeadingZeros_eq {digits : List Char} (h : isDigits digits = true) :
    withoutLeadingZeros digits = digitsText (value digits) := by
  obtain ⟨before, rest, rfl, hbefore, hfirst⟩ := Text.exists_run (· == '0') digits
  rw [withoutLeadingZeros, Text.dropWhile_append_of_stop hbefore hfirst,
    eq_zeros_of_forall hbefore, Decimal.value_zeros_append]
  cases rest with
  | nil => rfl
  | cons c rest =>
    have hrest : ∀ d ∈ c :: rest, d.isDigit = true :=
      fun d hd => forall_isDigit h d (List.mem_append_right _ hd)
    have hnonzero : (c :: rest).head? ≠ some '0' := by simpa using hfirst c rfl
    exact (Decimal.digitsText_value (List.cons_ne_nil c rest) hrest hnonzero).symm

/-- Only zeros have the number zero. -/
theorem dropWhile_eq_nil_iff {digits : List Char} (h : isDigits digits = true) :
    digits.dropWhile (· == '0') = [] ↔ value digits = 0 := by
  have heq := withoutLeadingZeros_eq h
  constructor
  · intro hnil
    rw [withoutLeadingZeros, hnil] at heq
    rw [← Decimal.value_digitsText (n := value digits), ← heq]
    rfl
  · intro hzero
    have hfirst := List.head?_dropWhile_not (· == '0') digits
    rw [hzero, withoutLeadingZeros] at heq
    cases hrest : digits.dropWhile (· == '0') with
    | nil => rfl
    | cons c rest =>
      rw [hrest] at heq hfirst
      cases heq
      cases hfirst

/-- Digits that are the same up to zeros behind them. -/
def SameDigits (f g : List Char) : Prop := ∃ m n, f ++ zeros m = g ++ zeros n

theorem sameDigits_iff {f g : List Char} :
    SameDigits f g ↔ withoutTrailingZeros f = withoutTrailingZeros g := by
  have hzeros (n : Nat) : (zeros n).all (· == '0') = true :=
    List.all_eq_true.mpr fun c hc => beq_iff_eq.mpr (List.eq_of_mem_replicate hc)
  constructor
  · rintro ⟨m, n, h⟩
    have hdrop := congrArg (Text.dropEndWhile (· == '0')) h
    rw [Text.dropEndWhile_append (hzeros m), Text.dropEndWhile_append (hzeros n)] at hdrop
    rw [withoutTrailingZeros, hdrop, ← withoutTrailingZeros]
  · intro h
    obtain ⟨post, hf, hpost⟩ := Text.exists_dropEndWhile (· == '0') f
    obtain ⟨post', hg, hpost'⟩ := Text.exists_dropEndWhile (· == '0') g
    have hdrop : Text.dropEndWhile (· == '0') f = Text.dropEndWhile (· == '0') g := by
      rw [← dropEndWhile_withoutTrailingZeros f, h, dropEndWhile_withoutTrailingZeros]
    refine ⟨post'.length, post.length, ?_⟩
    rw [hf, hg, hdrop, eq_zeros_of_forall (List.all_eq_true.mp hpost),
      eq_zeros_of_forall (List.all_eq_true.mp hpost'), List.append_assoc, List.append_assoc]
    simp [zeros, Nat.add_comm]

/-! ## Exponents -/

namespace Signum

/-- The number that a sign stands for. -/
def unit : Signum → ℤ
  | minus => -1
  | _ => 1

theorem natAbs_unit (sign : Signum) : sign.unit.natAbs = 1 := by
  cases sign <;> rfl

theorem normal_eq_iff {sign sign' : Signum} :
    sign.normal = sign'.normal ↔ sign.unit = sign'.unit := by
  cases sign <;> cases sign' <;> simp [normal, unit]

end Signum

namespace Exponent

/-- The integer that an exponent spells. -/
def toInt (e : Exponent) : ℤ := e.sign.unit * value e.digits

theorem natAbs_toInt (e : Exponent) : e.toInt.natAbs = value e.digits := by
  rw [toInt, Int.natAbs_mul, e.sign.natAbs_unit, Nat.one_mul, Int.natAbs_natCast]

/-- **Exponents have one normal form exactly if they spell one integer.** -/
theorem normal_eq_iff {e e' : Exponent} : e.normal = e'.normal ↔ e.toInt = e'.toInt := by
  have hdigits : withoutLeadingZeros e.digits = withoutLeadingZeros e'.digits ↔
      value e.digits = value e'.digits := by
    rw [withoutLeadingZeros_eq e.isDigits, withoutLeadingZeros_eq e'.isDigits]
    refine ⟨fun h => ?_, fun h => by rw [h]⟩
    rw [← Decimal.value_digitsText (n := value e.digits), h, Decimal.value_digitsText]
  simp only [normal, mk.injEq, true_and, hdigits, dropWhile_eq_nil_iff e.isDigits,
    dropWhile_eq_nil_iff e'.isDigits]
  constructor
  · rintro ⟨hsign, hvalue⟩
    rw [toInt, toInt, hvalue]
    rw [hvalue] at hsign
    -- Zero loses its sign in normal form, and is the same integer with any sign.
    by_cases hzero : value e'.digits = 0
    · rw [hzero, Int.ofNat_zero, Int.mul_zero, Int.mul_zero]
    · rw [if_neg hzero, if_neg hzero, Signum.normal_eq_iff] at hsign
      rw [hsign]
  · intro h
    have hvalue : value e.digits = value e'.digits := by
      rw [← e.natAbs_toInt, h, e'.natAbs_toInt]
    refine ⟨?_, hvalue⟩
    rw [hvalue]
    split
    · rfl
    · rename_i hne
      rw [toInt, toInt, hvalue] at h
      exact Signum.normal_eq_iff.mpr (Int.eq_of_mul_eq_mul_right (Int.natCast_ne_zero.mpr hne) h)

end Exponent

/-! ## Literals and their texts -/

/-- A text with a sign is cut behind the sign in one way only. -/
theorem signed_inj {sign sign' : Signum} {s s' : List Char} (hne : s ≠ []) (hne' : s' ≠ [])
    (hs : ∀ c ∈ s.head?, c.isDigit = true) (hs' : ∀ c ∈ s'.head?, c.isDigit = true)
    (h : sign.text ++ s = sign'.text ++ s') : sign = sign' ∧ s = s' := by
  have hsplit := splitSign?_text sign hne hs
  rw [h, splitSign?_text sign' hne' hs', Option.some.injEq, Prod.mk.injEq] at hsplit
  obtain ⟨-, rfl⟩ := hsplit
  have htext := List.append_cancel_right h
  cases sign <;> cases sign' <;> first | exact ⟨rfl, rfl⟩ | cases htext

theorem Exponent.text_injective : Function.Injective Exponent.text := by
  rintro ⟨mark, _, sign, digits, hdigits⟩ ⟨mark', _, sign', digits', hdigits'⟩ h
  obtain ⟨rfl, htail⟩ := List.cons.inj h
  obtain ⟨rfl, rfl⟩ := signed_inj (ne_nil_of_isDigits hdigits) (ne_nil_of_isDigits hdigits')
    (fun c hc => forall_isDigit hdigits c (List.mem_of_head? hc))
    (fun c hc => forall_isDigit hdigits' c (List.mem_of_head? hc)) htail
  rfl

theorem Exponent.elim_text_inj {x y : Option Exponent}
    (h : x.elim [] Exponent.text = y.elim [] Exponent.text) : x = y := by
  cases x <;> cases y
  case none.none => rfl
  case some.some => rw [Exponent.text_injective h]
  case none.some | some.none => cases h

namespace Literal

variable {d e : Literal}

/-- **A text is that of one literal at most.** -/
theorem text_injective : Function.Injective Literal.text := by
  intro d e h
  obtain ⟨hsign, htail⟩ := signed_inj (d.mantissa_append_ne_nil _) (e.mantissa_append_ne_nil _)
    (d.isDigit_head?_mantissa _) (e.isDigit_head?_mantissa _) h
  -- The mark of the exponent ends the mantissa, and the point ends the integer part.
  have hmark := splitExponent_append d.ne_mark_of_mem_mantissa d.exponent
  rw [htail, splitExponent_append e.ne_mark_of_mem_mantissa, Prod.mk.injEq] at hmark
  have hpoint := splitPoint_append d.point_not_mem_whole d.fraction
  rw [← mantissa, ← hmark.1, mantissa, splitPoint_append e.point_not_mem_whole,
    Prod.mk.injEq] at hpoint
  rw [← hmark.1, List.append_cancel_left_eq] at htail
  have hexponent := Exponent.elim_text_inj htail
  cases d
  cases e
  cases hsign
  cases hpoint.1
  cases hpoint.2
  cases hexponent
  rfl

/-- Two literals that write one number in one way: with the same sign, where plus says nothing, the
same integer part, and points and exponents in the same places, with fractions that are the same up
to zeros behind them and exponents that are the same integer. -/
structure Alike (d e : Literal) : Prop where
  sign : d.sign.unit = e.sign.unit
  whole : d.whole = e.whole
  fraction : Option.Rel SameDigits d.fraction e.fraction
  exponent : d.exponent.map Exponent.toInt = e.exponent.map Exponent.toInt

theorem rel_sameDigits_iff {f g : Option (List Char)} :
    Option.Rel SameDigits f g ↔ f.map withoutTrailingZeros = g.map withoutTrailingZeros := by
  cases f <;> cases g <;> simp [sameDigits_iff]

theorem map_normal_eq_iff {x y : Option Exponent} :
    x.map Exponent.normal = y.map Exponent.normal ↔
      x.map Exponent.toInt = y.map Exponent.toInt := by
  cases x <;> cases y <;> simp [Exponent.normal_eq_iff]

/-- **Literals have one normal form exactly if they are alike.** -/
theorem normal_eq_iff : d.normal = e.normal ↔ d.Alike e := by
  simp only [normal, mk.injEq, Signum.normal_eq_iff, ← rel_sameDigits_iff, map_normal_eq_iff]
  exact ⟨fun h => ⟨h.1, h.2.1, h.2.2.1, h.2.2.2⟩, fun h => ⟨h.sign, h.whole, h.fraction, h.exponent⟩⟩

/-! ## Numbers -/

/-- The number that digits behind a point stand for. -/
def fractionValue (digits : List Char) : ℚ := value digits / 10 ^ digits.length

theorem fractionValue_append_zeros (digits : List Char) (n : Nat) :
    fractionValue (digits ++ zeros n) = fractionValue digits := by
  have hlength : (digits ++ zeros n).length = digits.length + n := by simp [zeros]
  rw [fractionValue, hlength, Decimal.value_append_zeros, fractionValue]
  push_cast
  rw [pow_add]
  field_simp

theorem fractionValue_eq {f g : List Char} (h : SameDigits f g) :
    fractionValue f = fractionValue g := by
  obtain ⟨m, n, h⟩ := h
  rw [← fractionValue_append_zeros f m, h, fractionValue_append_zeros]

theorem elim_fractionValue_eq {f g : Option (List Char)} (h : Option.Rel SameDigits f g) :
    f.elim 0 fractionValue = g.elim 0 fractionValue := by
  cases h with
  | none => rfl
  | some hsame => exact fractionValue_eq hsame

/-- The number that a literal denotes. -/
def value (d : Literal) : ℚ :=
  d.sign.unit * (Decimal.value d.whole + d.fraction.elim 0 fractionValue) *
    10 ^ d.exponent.elim 0 Exponent.toInt

/-- **Literals that are alike denote one number.** -/
theorem Alike.value_eq (h : d.Alike e) : d.value = e.value := by
  have hexponent : d.exponent.elim 0 Exponent.toInt = e.exponent.elim 0 Exponent.toInt := by
    have helim (x : Option Exponent) : x.elim 0 Exponent.toInt = (x.map Exponent.toInt).getD 0 := by
      cases x <;> rfl
    rw [helim, h.exponent, helim]
  rw [value, h.sign, h.whole, elim_fractionValue_eq h.fraction, hexponent, ← value]

end Literal

/-! ## Texts -/

/-- A text is a decimal literal of a number. -/
def Denotes (s : List Char) (q : ℚ) : Prop := ∃ d : Literal, d.text = s ∧ d.value = q

theorem denotes_text_iff {d : Literal} {q : ℚ} : Denotes d.text q ↔ q = d.value := by
  constructor
  · rintro ⟨e, htext, rfl⟩
    rw [Literal.text_injective htext]
  · rintro rfl
    exact ⟨d, rfl, rfl⟩

theorem normalizeNumber_text (d : Literal) : normalizeNumber d.text = d.normal.text := by
  rw [normalizeNumber, normalDecimal?_text, Option.getD_some]

theorem forall_text_ne_iff {s : List Char} :
    (∀ d : Literal, d.text ≠ s) ↔ normalDecimal? s = none := by
  constructor
  · intro h
    rw [Option.eq_none_iff_forall_ne_some]
    intro found hfound
    obtain ⟨d, rfl⟩ := exists_literal hfound
    exact h d rfl
  · rintro h d rfl
    rw [normalDecimal?_text] at h
    cases h

theorem normalizeNumber_of_not_literal {s : List Char} (h : ∀ d : Literal, d.text ≠ s) :
    normalizeNumber s = s := by
  rw [normalizeNumber, forall_text_ne_iff.mp h, Option.getD_none]

theorem normalizeNumber_text_eq_iff {d e : Literal} :
    normalizeNumber d.text = normalizeNumber e.text ↔ d.Alike e := by
  rw [normalizeNumber_text, normalizeNumber_text, Literal.text_injective.eq_iff,
    Literal.normal_eq_iff]

/-- **Only literals that are alike are merged.** -/
theorem normalizeNumber_eq_iff {s t : List Char} : normalizeNumber s = normalizeNumber t ↔
    s = t ∨ ∃ d e : Literal, d.text = s ∧ e.text = t ∧ d.Alike e := by
  constructor
  · intro h
    by_cases hs : ∃ d : Literal, d.text = s <;> by_cases ht : ∃ e : Literal, e.text = t
    · obtain ⟨d, rfl⟩ := hs
      obtain ⟨e, rfl⟩ := ht
      exact .inr ⟨d, e, rfl, rfl, normalizeNumber_text_eq_iff.mp h⟩
    · obtain ⟨d, rfl⟩ := hs
      rw [normalizeNumber_text, normalizeNumber_of_not_literal (not_exists.mp ht)] at h
      exact absurd ⟨d.normal, h⟩ ht
    · obtain ⟨e, rfl⟩ := ht
      rw [normalizeNumber_text, normalizeNumber_of_not_literal (not_exists.mp hs)] at h
      exact absurd ⟨e.normal, h.symm⟩ hs
    · rw [normalizeNumber_of_not_literal (not_exists.mp hs),
        normalizeNumber_of_not_literal (not_exists.mp ht)] at h
      exact .inl h
  · rintro (rfl | ⟨d, e, rfl, rfl, halike⟩)
    · rfl
    · exact normalizeNumber_text_eq_iff.mpr halike

/-- **Number normalization is exact.** Two texts have one normal form exactly if they are the same or
literals that are alike. So texts that are merged denote one number and no other, a text that is no
literal stays as it is, and a normal form is its own. -/
theorem normalizeNumber_exact :
    (∀ s t, normalizeNumber s = normalizeNumber t ↔
      s = t ∨ ∃ d e : Literal, d.text = s ∧ e.text = t ∧ d.Alike e) ∧
    (∀ s t, s ≠ t → normalizeNumber s = normalizeNumber t →
      ∃ q, (∀ r, Denotes s r ↔ r = q) ∧ ∀ r, Denotes t r ↔ r = q) ∧
    (∀ s, (∀ d : Literal, d.text ≠ s) → normalizeNumber s = s) ∧
    ∀ s, normalizeNumber (normalizeNumber s) = normalizeNumber s := by
  refine ⟨fun s t => normalizeNumber_eq_iff, fun s t hne h => ?_,
    fun s => normalizeNumber_of_not_literal, normalizeNumber_normalizeNumber⟩
  obtain heq | ⟨d, e, rfl, rfl, halike⟩ := normalizeNumber_eq_iff.mp h
  · exact absurd heq hne
  · refine ⟨d.value, fun r => denotes_text_iff, fun r => ?_⟩
    rw [halike.value_eq]
    exact denotes_text_iff

/-- A thousand and a quarter of it, with everything that does not count. -/
def paddedThousand : Literal where
  sign := .plus
  whole := ['1']
  isWhole := rfl
  lean := by decide
  fraction := some ['2', '5', '0']
  isFraction := by decide
  exponent := some ⟨'E', .inr rfl, .plus, ['0', '3'], rfl⟩
  marked := by decide

theorem value_paddedThousand : paddedThousand.value = 1250 := by
  have hfraction : Decimal.value ['2', '5', '0'] = 250 := rfl
  have hexponent : Decimal.value ['0', '3'] = 3 := rfl
  have hwhole : Decimal.value ['1'] = 1 := rfl
  norm_num [Literal.value, paddedThousand, Literal.fractionValue, Exponent.toInt, Signum.unit,
    hfraction, hexponent, hwhole]

theorem normalizeNumber_exact_thousand :
    "+1.250E+03".toList ≠ "1.25e3".toList ∧
    normalizeNumber "+1.250E+03".toList = normalizeNumber "1.25e3".toList ∧
    (∀ r, Denotes "1.25e3".toList r ↔ r = 1250) ∧
    normalizeNumber "007".toList = "007".toList := by
  have hne : "+1.250E+03".toList ≠ "1.25e3".toList := by decide
  have hmerged : normalizeNumber "+1.250E+03".toList = normalizeNumber "1.25e3".toList := by
    decide +kernel
  obtain ⟨q, hs, ht⟩ := normalizeNumber_exact.2.1 _ _ hne hmerged
  have hq : q = 1250 := by
    rw [← value_paddedThousand]
    exact denotes_text_iff.mp ((hs q).mpr rfl)
  have hseven : normalDecimal? "007".toList = none := by decide +kernel
  exact ⟨hne, hmerged, hq ▸ ht, normalizeNumber_exact.2.2.1 _ (forall_text_ne_iff.mpr hseven)⟩

end CachedRun.Xml
