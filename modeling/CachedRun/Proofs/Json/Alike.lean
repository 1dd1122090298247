import CachedRun.Proofs.Json.Double

/-!
# Two layouts — where a document spells a double as a value

Documents and values have a layout each, and the same double may have two texts. They differ in
three ways: positional layout goes one place further down in documents (`0.00001`, where a value is
`1e-5`), a positive exponent has its sign there (`1e+16`), and of two shortest decimals that are
equally near a document takes the even one. **Nothing else is spelled in two ways**
(`doubleText_eq_write_iff`), and since both texts are read as the double that they are of, no text is
shared by two doubles.
-/

set_option autoImplicit false

namespace CachedRun

open Decimal

/-- The double has one text, inside documents and as a value. -/
def Double.SpelledAlike : Double → Prop
  | .finite _ mantissa exponent => mantissa = 0 ∨
    shortest .even mantissa exponent = shortest .up mantissa exponent ∧
      (shortest .up mantissa exponent).number < 10 ^ (16 : ℤ) ∧
      ((shortest .up mantissa exponent).number < 10 ^ (-5 : ℤ) ∨
        10 ^ (-4 : ℤ) ≤ (shortest .up mantissa exponent).number)
  | _ => False

namespace Decimal

variable {d : Digits} {m fuel : Nat} {e : Int}

/-! ## The layout of one decimal -/

/-- Where the point of a decimal stands tells its magnitude. -/
theorem number_lt_zpow_iff (hd : 0 < d.digits) {k : ℤ} :
    d.number < 10 ^ k ↔ ((digitsText d.digits).length + d.exponent : ℤ) ≤ k := by
  obtain ⟨hlow, hhigh⟩ := Double.digitCount_bounds hd
  have hten : (1 : ℚ) < 10 := by norm_num
  have hbelow : (10 : ℚ) ^ ((digitsText d.digits).length + d.exponent - 1) ≤ d.number := by
    calc (10 : ℚ) ^ ((digitsText d.digits).length + d.exponent - 1)
        = 10 ^ ((Double.digitCount d.digits : ℤ) - 1) * 10 ^ d.exponent := by
          rw [← zpow_add₀ (by norm_num), Double.digitCount, digitsText]
          congr 1
          ring
      _ ≤ d.number := mul_le_mul_of_nonneg_right hlow (ten_zpow_pos _).le
  have habove : d.number < (10 : ℚ) ^ ((digitsText d.digits).length + d.exponent : ℤ) := by
    rw [zpow_add₀ (by norm_num)]
    exact mul_lt_mul_of_pos_right hhigh (ten_zpow_pos _)
  constructor
  · intro hlt
    have := (zpow_lt_zpow_iff_right₀ hten).mp (hbelow.trans_lt hlt)
    omega
  · exact fun hle => habove.trans_le ((zpow_le_zpow_iff_right₀ hten).mpr hle)

/-- Only a positive exponent shows its sign or hides it. -/
theorem powerText_eq_iff {i : Int} :
    Spelling.powerText true i = Spelling.powerText false i ↔ i < 0 := by
  unfold Spelling.powerText
  by_cases hi : 0 ≤ i
  · rw [if_pos (by simpa using hi), if_neg (by simp)]
    refine iff_of_false (fun h => ?_) (by omega)
    have hlength := congrArg List.length h
    simp at hlength
  · rw [if_neg (by simpa using hi), if_neg (by simp)]
    exact iff_of_true rfl (by omega)

/-- What stands before the exponent is the same in every layout. -/
theorem exists_mantissa (digits : List Char) (point : Int) : ∃ mantissa : List Char,
    mantissa.length ≤ digits.length + 1 ∧ ∀ layout : Layout,
      layout.scientific digits point = mantissa ++ Spelling.powerText layout.plusSign (point - 1) := by
  rcases digits with _ | ⟨c, _ | ⟨c', rest⟩⟩
  · exact ⟨['0'], by simp, fun layout => by simp [Layout.scientific, Spelling.powerText]⟩
  · exact ⟨[c], by simp, fun layout => by simp [Layout.scientific, Spelling.powerText]⟩
  · exact ⟨c :: '.' :: c' :: rest, by simp,
      fun layout => by simp [Layout.scientific, Spelling.powerText]⟩

/-- One decimal has one text in both layouts, unless only one of them is positional or the exponent
is positive. -/
theorem positive_eq_iff : Layout.json.positive d = Layout.literal.positive d ↔
    ((digitsText d.digits).length + d.exponent : ℤ) ≤ 16 ∧
      ((digitsText d.digits).length + d.exponent : ℤ) ≠ -4 := by
  unfold Layout.positive
  simp only
  generalize hpoint : ((digitsText d.digits).length + d.exponent : ℤ) = point
  obtain ⟨mantissa, hlength, hscientific⟩ := exists_mantissa (digitsText d.digits) point
  rw [hscientific, hscientific]
  simp only [Bool.and_eq_true, decide_eq_true_eq]
  split_ifs with hjson hliteral hliteral <;>
    simp only [Layout.json, Layout.literal] at hjson hliteral ⊢
  · exact iff_of_true trivial (by omega)
  · -- Zeros behind the point take more room than an exponent.
    obtain rfl : point = -4 := by omega
    refine iff_of_false (fun h => ?_) (by simp)
    have hlonger := congrArg List.length h
    have hpower : (Spelling.powerText false (-4 - 1)).length = 3 := by decide
    rw [List.length_append, hpower] at hlonger
    simp [positional, zeros] at hlonger
    omega
  · omega
  · rw [List.append_cancel_left_eq]
    exact powerText_eq_iff.trans (by omega)

/-- Two decimals have one text exactly if they are the same and it is at a place where the layouts
agree. A text spells one number; that the number has one decimal is left to the digits. -/
theorem positive_eq_positive_iff {d' : Digits} (hd : 0 < d.digits) (hd' : 0 < d'.digits)
    (hsame : d.number = d'.number → d = d') :
    Layout.json.positive d = Layout.literal.positive d' ↔
      d = d' ∧ d'.number < 10 ^ (16 : ℤ) ∧
        (d'.number < 10 ^ (-5 : ℤ) ∨ 10 ^ (-4 : ℤ) ≤ d'.number) := by
  have hplace : Layout.json.positive d' = Layout.literal.positive d' ↔
      d'.number < 10 ^ (16 : ℤ) ∧ (d'.number < 10 ^ (-5 : ℤ) ∨ 10 ^ (-4 : ℤ) ≤ d'.number) := by
    rw [positive_eq_iff, ← not_lt (a := d'.number), number_lt_zpow_iff hd', number_lt_zpow_iff hd',
      number_lt_zpow_iff hd']
    omega
  rw [← hplace]
  constructor
  · intro h
    obtain ⟨s, hs, hnumber⟩ := exists_positive .json hd
    obtain ⟨t, ht, hnumber'⟩ := exists_positive .literal hd'
    have hdecimal := Json.decimal_of_text (hs.trans (h.trans ht.symm))
    rw [hdecimal, hnumber'] at hnumber
    obtain rfl := hsame hnumber.symm
    exact ⟨rfl, h⟩
  · rintro ⟨rfl, h⟩
    exact h

/-! ## The shortest decimal -/

variable {tie tie' : Tie}

theorem isSome_onGrid? (tie tie' : Tie) (r : Rounded) (k : Int) :
    (r.onGrid? tie k).isSome = (r.onGrid? tie' k).isSome := by
  unfold Rounded.onGrid?
  simp only
  split
  · rfl
  · rfl
  · rfl
  · split_ifs
    · rfl
    · rfl
    · cases tie <;> cases tie' <;> rfl
    · cases tie <;> cases tie' <;> rfl

/-- The search stops at the same grid, whatever is done about a tie. -/
theorem exponent_search (r : Rounded) (k : Int) :
    (r.search tie k fuel).exponent = (r.search tie' k fuel).exponent := by
  induction fuel generalizing k with
  | zero => rfl
  | succ fuel ih =>
    have hsame := isSome_onGrid? tie tie' r k
    rw [Rounded.search, Rounded.search]
    cases hfound : r.onGrid? tie k with
    | none =>
      rw [hfound, Option.isSome_none, eq_comm, Option.isSome_eq_false_iff,
        Option.isNone_iff_eq_none] at hsame
      rw [hsame]
      exact ih (k - 1)
    | some p =>
      rw [hfound, Option.isSome_some, eq_comm, Option.isSome_iff_exists] at hsame
      obtain ⟨p', hp'⟩ := hsame
      rw [hp']

/-- Two shortest decimals of a double that are one number are the same. -/
theorem shortest_eq_of_number_eq (h : (shortest tie m e).number = (shortest tie' m e).number) :
    shortest tie m e = shortest tie' m e := by
  rw [shortest, shortest, number_trimZeros, number_trimZeros] at h
  rw [shortest, shortest]
  have hexponent := @exponent_search 17 tie tie' (rounded m e)
    (pointPosition (rounded m e).value (rounded m e).denominator - 1)
  revert h hexponent
  generalize (rounded m e).search tie _ 17 = found
  generalize (rounded m e).search tie' _ 17 = found'
  intro h hexponent
  rw [Digits.number, Digits.number, hexponent, mul_left_inj' (ten_zpow_pos _).ne', Nat.cast_inj] at h
  cases found
  cases found'
  cases h
  cases hexponent
  rfl

/-! ## Doubles -/

theorem write_eq_iff {d : Double} (hd : d.IsRepresentable) (hfinite : d.isFinite = true) :
    Layout.json.write d = Layout.literal.write d ↔ d.SpelledAlike := by
  cases d with
  | nan | infinite negative => cases hfinite
  | finite negative mantissa exponent =>
    rw [Layout.write, Layout.write, List.append_cancel_left_eq, Double.SpelledAlike]
    obtain rfl | hpos := Nat.eq_zero_or_pos mantissa
    · rw [if_pos rfl, if_pos rfl]
      exact iff_of_true rfl (.inl rfl)
    · have hne := Nat.ne_of_gt hpos
      rw [if_neg hne, if_neg hne, or_iff_right hne]
      exact positive_eq_positive_iff (digits_shortest_pos .even hpos hd)
        (digits_shortest_pos .up hpos hd) shortest_eq_of_number_eq

/-- **The text of a double in a document is the text of a value exactly if it is that double**, and
one that has a single text. -/
theorem doubleText_eq_write_iff {d d' : Double} (hd : d.IsRepresentable)
    (hd' : d'.IsRepresentable) :
    Json.doubleText d = Layout.literal.write d' ↔ d = d' ∧ d.SpelledAlike := by
  have hread := readDouble_write .literal hd'
  cases hfinite : d.isFinite with
  | true =>
    rw [Json.doubleText, if_pos hfinite, ← write_eq_iff hd hfinite]
    constructor
    · intro h
      -- Both texts are read back, so one text is one double.
      rw [← h, readDouble_write .json hd] at hread
      cases hread
      exact ⟨rfl, h⟩
    · rintro ⟨rfl, h⟩
      exact h
  | false =>
    have hnull : readDouble ['n', 'u', 'l', 'l'] = .error .invalidFloat := by decide +kernel
    rw [Json.doubleText, if_neg (by simp [hfinite])]
    constructor
    · intro h
      rw [← h, hnull] at hread
      cases hread
    -- A double that is not finite has no text of its own in a document.
    · rintro ⟨-, halike⟩
      cases d with
      | nan | infinite negative => exact halike.elim
      | finite negative mantissa exponent => cases hfinite

end Decimal

end CachedRun
