import CachedRun.Proofs.Time.Rfc3339

/-!
# Milliseconds — the form that programs see

Programs see an instant with three digits of its fraction. The profile has four digits for a year, so
**the strict reader takes what programs see exactly if the year has four digits**, and then it gives
the instant up to the millisecond (`readStrict_toMillis`). An offset may carry a time of the year
9999 into the next, and one of the year 0 into the year before: these are instants, and what programs
see of them is not in the profile.
-/

set_option autoImplicit false

namespace CachedRun

/-- The instant with the rest of its millisecond cut off. -/
def Instant.wholeMillis (t : Instant) : Instant := ⟨t.seconds, t.nanos / 1000000 * 1000000⟩

namespace Time

open Decimal

variable {rest : List Char} {n width : Nat} {year : Int} {t : Instant}

theorem readNumber_padded (hwidth : 0 < width) (hn : n < 10 ^ width) (hrest : NoDigit rest) :
    readNumber width (some width) (padded width n ++ rest) = some (n, rest) := by
  have hlength : (padded width n).length = width := length_padded hwidth hn
  rw [readNumber_digits (fun _ => isDigit_of_mem_padded) hrest hlength.ge
    (by rintro _ ⟨⟩; exact hlength.le), value_padded]

/-- A year of four digits has no sign. -/
theorem readNumber_yearText (hyear : 0 ≤ year ∧ year ≤ 9999) (hrest : NoDigit rest) :
    readNumber 4 (some 4) (yearText year ++ rest) = some (year.natAbs, rest) := by
  rw [yearText, if_pos hyear]
  exact readNumber_padded (by decide) (by omega) hrest

/-- A year with a sign is not in the profile. -/
theorem readNumber_signedYear (hyear : ¬(0 ≤ year ∧ year ≤ 9999)) :
    readNumber 4 (some 4) (yearText year ++ rest) = none := by
  rw [yearText, if_neg hyear]
  split <;> rfl

/-- What is written of an instant with four digits of its year are the fields of its date and
time. -/
theorem readStrict_eq (hyear : 0 ≤ t.date.year ∧ t.date.year ≤ 9999)
    (hnanos : t.nanos < 2000000000) :
    readStrict (toMillis t).toList = Fields.instant? ⟨t.date, t.secondOfDay / 3600,
      t.secondOfDay / 60 % 60, t.secondOfDay % 60 + t.nanos / 1000000000,
      t.nanos % 1000000000 / 1000000 * 1000000, 0⟩ := by
  have hsecond := secondOfDay_lt t
  obtain ⟨hmonth, hday⟩ := date_lt t
  have hnatAbs : (t.date.year.natAbs : Int) = t.date.year := Int.natAbs_of_nonneg hyear.1
  have hfraction := @readFraction_padded (t.nanos % 1000000000 / 1000000) 3 (by decide) (by decide)
    (by omega)
  rw [toMillis, String.toList_ofList]
  unfold readStrict secondsText
  simp only [List.append_assoc, List.cons_append]
  -- Field by field, each of them with its separator: the year, the month, the day and the time.
  rw [readNumber_yearText hyear (noDigit_cons rfl)]
  simp only [bind, Option.bind, readChar, if_true]
  rw [readNumber_padded (by decide) hmonth (noDigit_cons rfl)]
  simp only [if_true]
  rw [readNumber_padded (by decide) hday (noDigit_cons rfl)]
  simp only [readSeparator, true_or, if_true]
  rw [readNumber_padded (by decide) (by omega) (noDigit_cons rfl)]
  simp only [if_true]
  rw [readNumber_padded (by decide) (by omega) (noDigit_cons rfl)]
  simp only [if_true]
  rw [readNumber_padded (by decide) (by omega) (noDigit_cons rfl)]
  simp only
  rw [List.cons_append] at hfraction
  rw [hfraction]
  simp only [readOffset, true_or, if_true, ne_eq, not_true_eq_false, if_false, hnatAbs]
  rfl

/-- **What programs see of an instant is read back exactly if the year has four digits**, up to the
millisecond. -/
theorem readStrict_toMillis (ht : t.IsProper) : readStrict (toMillis t).toList =
    if 0 ≤ t.date.year ∧ t.date.year ≤ 9999 then some t.wholeMillis else none := by
  have hnanos := ht.2
  split
  · rename_i hyear
    have hmillis : t.nanos % 1000000000 / 1000000 * 1000000 + t.nanos / 1000000000 * 1000000000 =
        t.nanos / 1000000 * 1000000 := by omega
    rw [readStrict_eq hyear (by omega), instant?_fields ht, hmillis, Instant.wholeMillis]
  · rename_i hyear
    rw [toMillis, String.toList_ofList]
    unfold readStrict secondsText
    rw [List.append_assoc, readNumber_signedYear hyear]
    rfl

/-- A year begins with a digit or a sign. -/
theorem head?_yearText (year : Int) (rest : List Char) :
    ∀ c ∈ (yearText year ++ rest).head?, Text.isBlank c = false := by
  unfold yearText
  split
  · rw [List.head?_append_of_ne_nil _ padded_ne_nil]
    exact fun c hc => Text.isBlank_of_isDigit (isDigit_of_mem_padded (List.mem_of_mem_head? hc))
  · rintro _ ⟨⟩
    split <;> rfl

/-- There are no blanks at the ends of what programs see. -/
theorem trimmed_toMillis (t : Instant) : Text.trimmed (toMillis t) = toMillis t := by
  have htext : Text.Trimmed (toMillis t).toList := by
    rw [toMillis, String.toList_ofList]
    constructor
    · rw [secondsText, List.append_assoc]
      exact head?_yearText t.date.year _
    · rw [← List.cons_append, ← List.append_assoc, List.getLast?_concat]
      rintro _ ⟨⟩
      rfl
  rw [Text.trimmed, htext.trim_eq, String.ofList_toList]

end Time

end CachedRun
