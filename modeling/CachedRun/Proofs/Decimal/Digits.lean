import CachedRun.Decimal.Layout
import CachedRun.Decimal.Literal
import Mathlib.Algebra.Group.Nat.Defs
import Mathlib.Data.List.Basic
import Mathlib.Data.List.Induction
import Mathlib.Tactic.Common
import Mathlib.Tactic.IntervalCases

/-!
# Digits — numbers written and read

A natural number is written with its decimal digits, with or without zeros in front, and every
reader in the library takes the digits back to the number in the same way (`value`). This file says
so, and what a reader has to know of the digits to find their end: they are digits, there is at
least one, and the first is no zero unless it stands alone. Such digits are those of their number
(`digitsText_value`), so two numbers that are written alike are one.
-/

set_option autoImplicit false

namespace CachedRun.Decimal

variable {n width : Nat} {c : Char}

theorem value_eq_ofDigitChars (digits : List Char) :
    value digits = Nat.ofDigitChars 10 digits 0 := by
  rw [Nat.ofDigitChars_eq_foldl, value]
  congr 1
  funext n c
  rw [Nat.mul_comm]

@[simp] theorem value_digitsText : value (digitsText n) = n := by
  rw [value_eq_ofDigitChars, digitsText, Nat.ofDigitChars_ten_toDigits]

theorem isDigit_of_mem_digitsText (h : c ∈ digitsText n) : c.isDigit = true :=
  Nat.isDigit_of_mem_toDigits (by decide) (by decide) h

theorem digitsText_ne_nil : digitsText n ≠ [] := Nat.toDigits_ne_nil

theorem exists_digitsText (n : Nat) :
    ∃ d digits, digitsText n = d :: digits ∧ d.isDigit = true := by
  obtain ⟨d, digits, htext⟩ := List.exists_cons_of_ne_nil (digitsText_ne_nil (n := n))
  refine ⟨d, digits, htext, isDigit_of_mem_digitsText (n := n) ?_⟩
  rw [htext]
  exact List.mem_cons_self ..

/-- A number other than zero begins with another digit. -/
theorem head?_digitsText (h : n ≠ 0) : (digitsText n).head? ≠ some '0' := by
  induction n using Nat.strongRecOn with
  | ind n ih =>
    rw [digitsText, Nat.toDigits_eq_if (by decide)]
    split
    · simpa using h
    · rename_i hlarge
      have hrest := ih (n / 10) (by omega) (by omega)
      rw [List.head?_append]
      rw [digitsText] at hrest
      cases hhead : (Nat.toDigits 10 (n / 10)).head? with
      | none => exact absurd (List.head?_eq_none_iff.mp hhead) Nat.toDigits_ne_nil
      | some d =>
        rw [hhead] at hrest
        exact hrest

@[simp] theorem value_padded : value (padded width n) = n := by
  rw [value_eq_ofDigitChars, padded, zeros, Nat.ofDigitChars_append,
    Nat.ofDigitChars_replicate_zero, Nat.mul_zero, digitsText, Nat.ofDigitChars_ten_toDigits]

theorem isDigit_of_mem_padded (h : c ∈ padded width n) : c.isDigit = true := by
  rcases List.mem_append.mp h with h | h
  · rw [List.eq_of_mem_replicate h]
    rfl
  · exact isDigit_of_mem_digitsText h

theorem length_padded (hwidth : 0 < width) (h : n < 10 ^ width) :
    (padded width n).length = width := by
  have hlength := (Nat.length_toDigits_le_iff (b := 10) (by decide) hwidth).mpr h
  rw [padded, zeros, List.length_append, List.length_replicate, digitsText]
  omega

theorem padded_ne_nil : padded width n ≠ [] := by
  rw [padded, Ne, List.append_eq_nil_iff]
  exact fun h => digitsText_ne_nil h.2

theorem le_length_padded : width ≤ (padded width n).length := by
  rw [padded, zeros, List.length_append, List.length_replicate]
  omega

/-! ## The digits of a number -/

theorem value_append_singleton (digits : List Char) (c : Char) :
    value (digits ++ [c]) = value digits * 10 + (c.toNat - '0'.toNat) := by
  rw [value, List.foldl_append, ← value]
  rfl

theorem value_append_zeros (digits : List Char) (n : Nat) :
    value (digits ++ zeros n) = 10 ^ n * value digits := by
  rw [value_eq_ofDigitChars, Nat.ofDigitChars_append, zeros, Nat.ofDigitChars_replicate_zero,
    value_eq_ofDigitChars]

theorem value_zeros_append (n : Nat) (digits : List Char) :
    value (zeros n ++ digits) = value digits := by
  rw [value_eq_ofDigitChars, Nat.ofDigitChars_append, zeros, Nat.ofDigitChars_replicate_zero,
    Nat.mul_zero, value_eq_ofDigitChars]

theorem toNat_sub_lt {c : Char} (h : c.isDigit = true) : c.toNat - '0'.toNat < 10 := by
  have hhigh : c.toNat ≤ 57 := (Char.isDigit_iff_toNat.mp h).2
  change c.toNat - 48 < 10
  omega

theorem digitChar_toNat {c : Char} (h : c.isDigit = true) :
    Nat.digitChar (c.toNat - '0'.toNat) = c := by
  obtain ⟨hlow, hhigh⟩ : 48 ≤ c.toNat ∧ c.toNat ≤ 57 := Char.isDigit_iff_toNat.mp h
  rw [← Char.ofNat_toNat c]
  generalize c.toNat = n at hlow hhigh
  interval_cases n <;> rfl

/-- **Digits are those of their number**, if the first is no zero. -/
theorem digitsText_value {digits : List Char} (hne : digits ≠ [])
    (hdigits : ∀ c ∈ digits, c.isDigit = true) (hfirst : digits.head? ≠ some '0') :
    digitsText (value digits) = digits := by
  induction digits using List.reverseRecOn with
  | nil => exact absurd rfl hne
  | append_singleton digits c ih =>
    rw [List.forall_mem_append, List.forall_mem_singleton] at hdigits
    have hc := toNat_sub_lt hdigits.2
    rw [value_append_singleton, digitsText, Nat.toDigits_eq_if (by decide)]
    by_cases hnil : digits = []
    · subst hnil
      rw [if_pos (by simpa [value] using hc)]
      simpa [value] using digitChar_toNat hdigits.2
    · rw [List.head?_append_of_ne_nil _ hnil] at hfirst
      have hrest := ih hnil hdigits.1 hfirst
      -- The number of the other digits is not zero, or they would be a zero.
      have hpos : value digits ≠ 0 := by
        intro hzero
        rw [hzero] at hrest
        exact hfirst (hrest ▸ rfl)
      rw [if_neg (by omega), Nat.mul_comm, Nat.mul_add_div (by decide), Nat.mul_add_mod,
        Nat.div_eq_of_lt hc, Nat.mod_eq_of_lt hc, Nat.add_zero, ← digitsText, hrest,
        digitChar_toNat hdigits.2]

/-! ## Integers -/

theorem isDigit_or_of_mem_intText {i : Int} (hc : c ∈ intText i) :
    c.isDigit = true ∨ c = '-' := by
  cases i with
  | ofNat n => exact .inl (isDigit_of_mem_digitsText hc)
  | negSucc n =>
    rcases List.mem_cons.mp hc with rfl | hc
    · exact .inr rfl
    · exact .inl (isDigit_of_mem_digitsText hc)

/-- The number that digits are read onto only grows. -/
theorem le_foldl_digits (s : List Char) (n : Nat) :
    n ≤ s.foldl (fun n c => n * 10 + (c.toNat - '0'.toNat)) n := by
  induction s generalizing n with
  | nil => exact le_rfl
  | cons c s ih => exact le_trans (by omega) (ih (n * 10 + (c.toNat - '0'.toNat)))

/-- Digits that stay below the limit to the end are read. -/
theorem readDigits_eq_ok {limit : Nat} {overflow : Flaw} {s : List Char}
    (hs : ∀ c ∈ s, c.isDigit = true) (n : Nat)
    (h : s.foldl (fun n c => n * 10 + (c.toNat - '0'.toNat)) n ≤ limit) :
    readDigits limit overflow n s = .ok (s.foldl (fun n c => n * 10 + (c.toNat - '0'.toNat)) n) := by
  induction s generalizing n with
  | nil => rfl
  | cons c s ih =>
    rw [List.forall_mem_cons] at hs
    rw [List.foldl_cons] at h ⊢
    have hnext : n * 10 + (c.toNat - '0'.toNat) ≤ limit := (le_foldl_digits s _).trans h
    rw [readDigits, digit?, if_pos hs.1]
    simp only
    rw [if_neg (not_lt.mpr hnext), ih hs.2 _ h]

theorem readNatural_digitsText {limit : Nat} (overflow : Flaw) (h : n ≤ limit) :
    readNatural limit overflow (digitsText n) = .ok n := by
  have hvalue : (digitsText n).foldl (fun n c => n * 10 + (c.toNat - '0'.toNat)) 0 = n :=
    value_digitsText
  have hread := @readDigits_eq_ok limit overflow (digitsText n)
    (fun c => isDigit_of_mem_digitsText) 0 (by rwa [hvalue])
  obtain ⟨c, digits, htext, -⟩ := exists_digitsText n
  rw [hvalue] at hread
  rw [htext] at hread ⊢
  exact hread

/-- **An integer is read from its text**, if it lies between the bounds. -/
theorem readInt_intText {least greatest : Nat} {i : Int} (hleast : -(least : Int) ≤ i)
    (hgreatest : i ≤ greatest) : readInt least greatest (intText i) = .ok i := by
  cases i with
  | ofNat n =>
    have hread := readNatural_digitsText .tooLarge (Int.ofNat_le.mp hgreatest)
    obtain ⟨c, digits, htext, hc⟩ := exists_digitsText n
    rw [htext] at hread
    rw [intText, htext, readInt.eq_def]
    -- The digits of a number do not begin with a sign, so the reader takes its last branch.
    split
    · rename_i heq
      cases heq
    · rename_i heq
      cases heq
      cases hc
    · rename_i heq
      cases heq
      cases hc
    · rw [hread]
      rfl
  | negSucc n =>
    have hread : readNatural least .tooSmall (digitsText (n + 1)) = .ok (n + 1) :=
      readNatural_digitsText .tooSmall (by omega)
    rw [intText, readInt, hread]
    rfl

theorem intText_injective : Function.Injective intText := by
  intro i j h
  have hread {k : Int} (hk : k.natAbs ≤ max i.natAbs j.natAbs) :
      readInt (max i.natAbs j.natAbs) (max i.natAbs j.natAbs) (intText k) = .ok k :=
    readInt_intText (by omega) (by omega)
  have hi := hread (k := i) (le_max_left ..)
  rw [h, hread (le_max_right ..)] at hi
  cases hi
  rfl

end CachedRun.Decimal
