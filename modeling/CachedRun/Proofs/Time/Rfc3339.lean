import CachedRun.Proofs.Decimal.Digits
import CachedRun.Proofs.Text.Blank
import CachedRun.Proofs.Time.Calendar
import CachedRun.Time.Rfc3339

/-!
# Dates and times — an instant and its text

The text of an instant says all of it, down to the nanosecond and the leap second, and the relaxed
reader takes it back (`readRelaxed_toShortest`). That is so of `IsProper` instants: a year that
there is, and a leap second only at the end of a minute. What the strict reader gives is proper
(`isProper_of_readStrict`), whatever offset it was written with.
-/

set_option autoImplicit false

namespace CachedRun

/-- An instant in a year that there is; a leap second follows the last second of a minute. -/
def Instant.IsProper (t : Instant) : Prop :=
  Time.isYear t.date.year = true ∧
    (t.nanos < 1000000000 ∨ t.nanos < 2000000000 ∧ t.seconds % 60 = 59)

namespace Time

open Decimal

variable {digits rest : List Char} {least n : Nat}

/-! ## Parts -/

/-- A text that does not go on with a digit. -/
def NoDigit (s : List Char) : Prop := ∀ c ∈ s.head?, c.isDigit = false

theorem takeWhile_digits (hdigits : ∀ c ∈ digits, c.isDigit = true) (hrest : NoDigit rest) :
    (digits ++ rest).takeWhile Char.isDigit = digits := by
  rw [List.takeWhile_append_of_pos hdigits]
  cases rest with
  | nil => simp
  | cons c rest => simp [hrest c rfl]

theorem readNumber_digits {most : Option Nat} (hdigits : ∀ c ∈ digits, c.isDigit = true)
    (hrest : NoDigit rest) (hleast : least ≤ digits.length)
    (hmost : ∀ n ∈ most, digits.length ≤ n) :
    readNumber least most (digits ++ rest) = some (value digits, rest) := by
  unfold readNumber
  simp only [takeWhile_digits hdigits hrest]
  cases most with
  | none => simp [Nat.not_lt.mpr hleast]
  | some n => simp [List.take_of_length_le (hmost n rfl), Nat.not_lt.mpr hleast]

theorem trimStart_digits (hne : digits ≠ []) (hdigits : ∀ c ∈ digits, c.isDigit = true) :
    Text.trimStart (digits ++ rest) = digits ++ rest := by
  cases digits with
  | nil => exact absurd rfl hne
  | cons d digits =>
    refine Text.trimStart_of_not_isBlank fun c hc => ?_
    cases hc
    exact Text.isBlank_of_isDigit (hdigits d (List.mem_cons_self ..))

/-- A number of two digits. -/
theorem readField_padded (hn : n < 100) (hrest : NoDigit rest) :
    readField (padded 2 n ++ rest) = some (n, rest) := by
  have hlength : (padded 2 n).length = 2 := length_padded (by decide) hn
  unfold readField
  rw [trimStart_digits padded_ne_nil fun _ => isDigit_of_mem_padded,
    readNumber_digits (fun _ => isDigit_of_mem_padded) hrest (by omega)
      (by rintro _ ⟨⟩; omega), value_padded]

theorem readYear_digits (hdigits : ∀ c ∈ digits, c.isDigit = true) (hrest : NoDigit rest)
    (hleast : 1 ≤ digits.length) (hmost : digits.length ≤ 4) :
    readYear (digits ++ rest) = some ((value digits : Int), rest) := by
  have hread : readNumber 1 (some 4) (digits ++ rest) = some (value digits, rest) :=
    readNumber_digits hdigits hrest hleast (by rintro _ ⟨⟩; exact hmost)
  cases digits with
  | nil => cases hleast
  | cons d digits =>
    have hdigit := hdigits d (List.mem_cons_self ..)
    unfold readYear
    rw [trimStart_digits (by simp) hdigits]
    -- A digit is no sign.
    split
    · rename_i h
      cases h
      cases hdigit
    · rename_i h
      cases h
      cases hdigit
    · rw [hread]
      rfl

theorem readYear_signed (hdigits : ∀ c ∈ digits, c.isDigit = true) (hrest : NoDigit rest)
    (hleast : 1 ≤ digits.length) (negative : Bool) :
    readYear ((if negative then '-' else '+') :: digits ++ rest) =
      some (if negative then -(value digits : Int) else value digits, rest) := by
  have hread : readNumber 1 none (digits ++ rest) = some (value digits, rest) :=
    readNumber_digits hdigits hrest hleast nofun
  unfold readYear
  rw [List.cons_append, Text.trimStart_of_not_isBlank (by cases negative <;> rintro _ ⟨⟩ <;> rfl)]
  cases negative with
  | true =>
    simp only [if_true, hread]
    rfl
  | false =>
    simp only [Bool.false_eq_true, if_false, hread]
    rfl

/-- A year with or without its sign. -/
theorem readYear_yearText (year : Int) (hrest : NoDigit rest) :
    readYear (yearText year ++ rest) = some (year, rest) := by
  have hdigits : ∀ c ∈ padded 4 year.natAbs, c.isDigit = true := fun _ => isDigit_of_mem_padded
  have hleast : 4 ≤ (padded 4 year.natAbs).length := le_length_padded
  unfold yearText
  by_cases hyear : 0 ≤ year ∧ year ≤ 9999
  · have hlength : (padded 4 year.natAbs).length = 4 := length_padded (by decide) (by omega)
    rw [if_pos hyear, readYear_digits hdigits hrest (by omega) (by omega), value_padded]
    congr 2
    omega
  · have hsigned := readYear_signed hdigits hrest (by omega) (decide (year < 0))
    rw [if_neg hyear]
    simp only [decide_eq_true_eq] at hsigned
    rw [hsigned, value_padded]
    congr 2
    split <;> omega

/-- A fraction of up to nine digits. -/
theorem readFraction_padded {width : Nat} (hwidth : 0 < width) (hwidth9 : width ≤ 9)
    (hn : n < 10 ^ width) :
    readFraction ('.' :: padded width n ++ ['Z']) = some (n * 10 ^ (9 - width), ['Z']) := by
  have hlength : (padded width n).length = width := length_padded hwidth hn
  have hrun : (padded width n ++ ['Z']).takeWhile Char.isDigit = padded width n :=
    takeWhile_digits (fun _ => isDigit_of_mem_padded) (by rintro c ⟨⟩; rfl)
  rw [List.cons_append]
  unfold readFraction
  simp only [hrun, if_neg padded_ne_nil, List.take_of_length_le (hlength.trans_le hwidth9),
    value_padded, List.drop_left]
  rw [hlength]
  rfl

/-- The fraction of a second. -/
theorem readFraction_shortestFraction (hn : n < 1000000000) :
    readFraction (shortestFraction n ++ ['Z']) = some (n, ['Z']) := by
  unfold shortestFraction
  split
  · rename_i h
    rw [h]
    rfl
  · split
    · rw [readFraction_padded (by decide) (by decide) (by omega)]
      congr 2
      omega
    · split
      · rw [readFraction_padded (by decide) (by decide) (by omega)]
        congr 2
        omega
      · rw [readFraction_padded (by decide) (by decide) (by omega)]
        congr 2
        omega

/-! ## The whole text -/

theorem noDigit_cons {c : Char} (h : c.isDigit = false) : NoDigit (c :: rest) := by
  rintro _ ⟨⟩
  exact h

theorem readMark_self {c : Char} (h : Text.isBlank c = false) :
    readMark c (c :: rest) = some rest := by
  rw [readMark, Text.trimStart_of_not_isBlank (by rintro _ ⟨⟩; exact h), readChar, if_pos rfl]

theorem noDigit_shortestFraction : NoDigit (shortestFraction n ++ ['Z']) := by
  unfold shortestFraction
  repeat' split
  all_goals exact noDigit_cons rfl

/-- The month and the day of an instant have two digits. -/
theorem date_lt (t : Instant) : t.date.month < 100 ∧ t.date.day < 100 := by
  have hvalid := isValid_dateOf (t.seconds / 86400)
  rw [← Instant.date, Date.isValid] at hvalid
  simp only [Bool.and_eq_true, decide_eq_true_eq] at hvalid
  have hmonth : daysInMonth t.date.year t.date.month ≤ 31 := by
    unfold daysInMonth
    repeat' split
    all_goals omega
  omega

theorem secondOfDay_lt (t : Instant) : t.secondOfDay < 86400 := by
  unfold Instant.secondOfDay
  omega

/-- What is written of an instant are the fields of its date and time. -/
theorem readRelaxed_eq (t : Instant) (hnanos : t.nanos < 2000000000) :
    readRelaxed (toShortest t).toList = Fields.instant? ⟨t.date, t.secondOfDay / 3600,
      t.secondOfDay / 60 % 60, t.secondOfDay % 60 + t.nanos / 1000000000, t.nanos % 1000000000, 0⟩ := by
  have hsecond := secondOfDay_lt t
  obtain ⟨hmonth, hday⟩ := date_lt t
  rw [toShortest, String.toList_ofList]
  unfold readRelaxed secondsText
  simp only [List.append_assoc, List.cons_append]
  -- Field by field, each of them with its separator: the year, the month, the day and the time.
  rw [readYear_yearText _ (noDigit_cons rfl)]
  simp only [bind, Option.bind]
  rw [readMark_self rfl]
  simp only
  rw [readField_padded hmonth (noDigit_cons rfl)]
  simp only
  rw [readMark_self rfl]
  simp only
  rw [readField_padded hday (noDigit_cons rfl)]
  simp only [readSeparator, true_or, if_true]
  rw [readField_padded (by omega) (noDigit_cons rfl)]
  simp only
  rw [readMark_self rfl]
  simp only
  rw [readField_padded (by omega) (noDigit_cons rfl)]
  simp only
  rw [readMark_self rfl]
  simp only
  rw [readField_padded (by omega) noDigit_shortestFraction]
  simp only
  rw [readFraction_shortestFraction (by omega)]
  rfl

/-- The fields of an instant are those of its second, with whatever fraction is written. -/
theorem instant?_fields {t : Instant} (ht : t.IsProper) (nanos : Nat) :
    Fields.instant? ⟨t.date, t.secondOfDay / 3600, t.secondOfDay / 60 % 60,
        t.secondOfDay % 60 + t.nanos / 1000000000, nanos, 0⟩ =
      some ⟨t.seconds, nanos + t.nanos / 1000000000 * 1000000000⟩ := by
  obtain ⟨hyear, hnanos⟩ := ht
  have hdays : daysOf t.date = t.seconds / 86400 := daysOf_dateOf _
  have hvalid : t.date.isValid = true := isValid_dateOf _
  have hsecond : (t.secondOfDay : Int) = t.seconds % 86400 := by
    unfold Instant.secondOfDay
    omega
  rw [Fields.instant?, if_pos]
  · -- The second that is written is 60 exactly in a leap second.
    have hleap : (if t.secondOfDay % 60 + t.nanos / 1000000000 = 60 then 1 else 0) =
        t.nanos / 1000000000 := by
      split <;> omega
    have hseconds : t.seconds / 86400 * 86400 +
        ((t.secondOfDay / 3600 : Nat) * 60 + (t.secondOfDay / 60 % 60 : Nat)) * 60 +
          (t.secondOfDay % 60 + t.nanos / 1000000000 - t.nanos / 1000000000 : Nat) - 0 =
        t.seconds := by
      omega
    have hdate (n : Nat) : isYear (Instant.date ⟨t.seconds, n⟩).year = true := hyear
    simp only [hleap, hdays, hseconds, hdate, if_true]
  · simp only [hvalid, hyear, Bool.and_eq_true, decide_eq_true_eq, true_and]
    refine ⟨⟨⟨?_, ?_⟩, ?_⟩, by decide⟩ <;> omega

/-- **An instant is read back from its text.** -/
theorem readRelaxed_toShortest {t : Instant} (ht : t.IsProper) :
    readRelaxed (toShortest t).toList = some t := by
  have hnanos := ht.2
  rw [readRelaxed_eq t (by omega), instant?_fields ht, Nat.mul_comm, Nat.mod_add_div]

/-! ## What the strict reader gives -/

theorem value_lt (hdigits : ∀ c ∈ digits, c.isDigit = true) :
    value digits < 10 ^ digits.length := by
  rw [value_eq_ofDigitChars]
  induction digits with
  | nil => decide
  | cons c digits ih =>
    rw [List.forall_mem_cons] at hdigits
    have hrest := ih hdigits.2
    have hdigit : c.toNat - '0'.toNat ≤ 9 := by
      have h := hdigits.1
      simp only [Char.isDigit, Bool.and_eq_true, decide_eq_true_eq] at h
      have hhigh : c.toNat ≤ 57 := h.2
      have hzero : '0'.toNat = 48 := rfl
      omega
    rw [Nat.ofDigitChars_cons, Nat.ofDigitChars_eq_ofDigitChars_zero, List.length_cons, Nat.pow_succ]
    have hproduct : 10 ^ digits.length * (10 * 0 + (c.toNat - '0'.toNat)) ≤ 10 ^ digits.length * 9 :=
      Nat.mul_le_mul_left _ (by omega)
    omega

/-- A fraction is of less than a second. Nine digits of it count, and fewer are filled up with
zeros. -/
theorem nanos_of_readFraction {s : List Char} (h : readFraction s = some (n, rest)) :
    n < 1000000000 := by
  unfold readFraction at h
  split at h
  · rename_i tail
    simp only at h
    split at h
    · cases h
    · cases h
      have hlength : ((tail.takeWhile Char.isDigit).take 9).length ≤ 9 := List.length_take_le ..
      have hvalue : value ((tail.takeWhile Char.isDigit).take 9) <
          10 ^ ((tail.takeWhile Char.isDigit).take 9).length :=
        value_lt fun c hc => List.all_eq_true.mp List.all_takeWhile c (List.mem_of_mem_take hc)
      calc value ((tail.takeWhile Char.isDigit).take 9) *
            10 ^ (9 - ((tail.takeWhile Char.isDigit).take 9).length)
          < 10 ^ ((tail.takeWhile Char.isDigit).take 9).length *
            10 ^ (9 - ((tail.takeWhile Char.isDigit).take 9).length) :=
            Nat.mul_lt_mul_of_pos_right hvalue (Nat.pow_pos (by decide))
        _ = 1000000000 := by
            rw [← Nat.pow_add, Nat.add_sub_cancel' hlength]
  · cases h
    decide

/-- Offsets are of whole minutes. -/
theorem dvd_of_readOffset {between : List Char → Option (List Char)} {s : List Char} {offset : Int}
    (h : readOffset between s = some (offset, rest)) : 60 ∣ offset := by
  cases s with
  | nil => cases h
  | cons c s =>
    rw [readOffset] at h
    -- Either it is universal time, or it has a sign, hours and minutes.
    by_cases hz : c = 'Z' ∨ c = 'z'
    · rw [if_pos hz] at h
      cases h
      exact ⟨0, rfl⟩
    by_cases hsign : c = '+' ∨ c = '-' ∨ c = '\u2212'
    · rw [if_neg hz, if_pos hsign] at h
      simp only [bind, Option.bind_eq_some_iff] at h
      obtain ⟨⟨hours, s₁⟩, -, s₂, -, ⟨minutes, s₃⟩, -, h⟩ := h
      simp only at h
      by_cases hminutes : 59 < minutes
      · rw [if_pos hminutes] at h
        cases h
      · rw [if_neg hminutes, Option.some.injEq, Prod.mk.injEq] at h
        obtain ⟨rfl, -⟩ := h
        split <;> omega
    · rw [if_neg hz, if_neg hsign] at h
      cases h

theorem isProper_of_instant? {f : Fields} {t : Instant} (hnanos : f.nanos < 1000000000)
    (hoffset : 60 ∣ f.offset) (h : f.instant? = some t) : t.IsProper := by
  unfold Fields.instant? at h
  split at h
  · rename_i hfields
    simp only [Bool.and_eq_true, decide_eq_true_eq] at hfields
    have hleap : (if f.second = 60 then 1 else 0) = f.second / 60 := by
      split <;> omega
    simp only [hleap] at h
    obtain ⟨hyear, h⟩ := Option.ite_none_right_eq_some.mp h
    cases h
    refine ⟨hyear, ?_⟩
    by_cases hsixty : f.second = 60
    · right
      simp only [hsixty]
      omega
    · left
      simp only
      omega
  · cases h

/-- **A time in the profile is proper.** -/
theorem isProper_of_readStrict {s : List Char} {t : Instant} (h : readStrict s = some t) :
    t.IsProper := by
  obtain ⟨⟨year, s₁⟩, -, h⟩ := Option.bind_eq_some_iff.mp h
  obtain ⟨s₂, -, h⟩ := Option.bind_eq_some_iff.mp h
  obtain ⟨⟨month, s₃⟩, -, h⟩ := Option.bind_eq_some_iff.mp h
  obtain ⟨s₄, -, h⟩ := Option.bind_eq_some_iff.mp h
  obtain ⟨⟨day, s₅⟩, -, h⟩ := Option.bind_eq_some_iff.mp h
  obtain ⟨s₆, -, h⟩ := Option.bind_eq_some_iff.mp h
  obtain ⟨⟨hour, s₇⟩, -, h⟩ := Option.bind_eq_some_iff.mp h
  obtain ⟨s₈, -, h⟩ := Option.bind_eq_some_iff.mp h
  obtain ⟨⟨minute, s₉⟩, -, h⟩ := Option.bind_eq_some_iff.mp h
  obtain ⟨s₁₀, -, h⟩ := Option.bind_eq_some_iff.mp h
  obtain ⟨⟨second, s₁₁⟩, -, h⟩ := Option.bind_eq_some_iff.mp h
  obtain ⟨⟨nanos, s₁₂⟩, hnanos, h⟩ := Option.bind_eq_some_iff.mp h
  obtain ⟨⟨offset, s₁₃⟩, hoffset, h⟩ := Option.bind_eq_some_iff.mp h
  have hfields := (Option.ite_none_left_eq_some.mp h).2
  exact isProper_of_instant? (nanos_of_readFraction hnanos) (dvd_of_readOffset hoffset) hfields

end Time

end CachedRun
