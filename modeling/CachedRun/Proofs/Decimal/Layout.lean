import CachedRun.Decimal.Layout
import CachedRun.Proofs.Decimal.Digits
import CachedRun.Proofs.Decimal.Shortest
import CachedRun.Proofs.Text.Blank

/-!
# Layouts — a double is read from its text

Two places write doubles, and they disagree on where positional layout ends and on the sign of an
exponent. What they write has the same parts, though: digits, a point with more digits, an exponent.
A `Spelling` is a decimal by its parts, which carry what is asked of them, and the text of a double
is one in every layout (`exists_positive`), of the same number as the digits that were laid out. So
a reader has to be right about spellings only, and **a double is read from its text in every layout**
(`readDouble_write`): the same double, bit for bit.
-/

set_option autoImplicit false

namespace CachedRun.Decimal

open Double

variable {n : Nat} {s rest : List Char}

/-! ## Spellings -/

/-- A decimal with a point or an exponent, by its parts. -/
structure Spelling where
  whole : List Char
  fraction : Option (List Char)
  power : Option Int
  /-- A positive exponent has its sign. -/
  plusSign : Bool
  whole_ne_nil : whole ≠ []
  isDigit_whole : ∀ c ∈ whole, c.isDigit = true
  /-- A zero in front stands alone. -/
  whole_first : whole = ['0'] ∨ whole.head? ≠ some '0'
  fraction_ne_nil : fraction ≠ some []
  isDigit_fraction : ∀ c ∈ fraction.getD [], c.isDigit = true
  marked : fraction = none → power ≠ none

namespace Spelling

/-- An exponent with its mark. -/
def powerText (plusSign : Bool) (i : Int) : List Char :=
  (if plusSign && 0 ≤ i then ['e', '+'] else ['e']) ++ intText i

theorem exists_powerText (plusSign : Bool) (i : Int) :
    ∃ tail, powerText plusSign i = 'e' :: tail := by
  unfold powerText
  split
  · exact ⟨_, rfl⟩
  · exact ⟨_, rfl⟩

def text (s : Spelling) : List Char :=
  s.whole ++ (s.fraction.elim [] ('.' :: ·) ++ s.power.elim [] (powerText s.plusSign))

/-- The digits without the point, which is moved into the exponent. -/
def decimal (s : Spelling) : Digits :=
  ⟨value (s.whole ++ s.fraction.getD []), s.power.getD 0 - (s.fraction.getD []).length⟩

theorem exists_text (s : Spelling) : ∃ c tail, s.text = c :: tail ∧ c.isDigit = true := by
  obtain ⟨c, tail, hwhole⟩ := List.exists_cons_of_ne_nil s.whole_ne_nil
  refine ⟨c, _, by rw [text, hwhole, List.cons_append], s.isDigit_whole c ?_⟩
  rw [hwhole]
  exact List.mem_cons_self ..

end Spelling

/-! ## Reading spellings -/

theorem splitSign_of_isDigit (hs : ∀ c ∈ s.head?, c.isDigit = true) :
    splitSign s = (false, s) := by
  unfold splitSign
  split
  · exact absurd (hs '-' rfl) (by decide)
  · exact absurd (hs '+' rfl) (by decide)
  · rfl

theorem toLower_of_isDigit {c : Char} (h : c.isDigit = true) : c.toLower = c := by
  obtain ⟨hlow, hhigh⟩ : 48 ≤ c.toNat ∧ c.toNat ≤ 57 := Char.isDigit_iff_toNat.mp h
  rw [← Char.ofNat_toNat c]
  generalize c.toNat = n at hlow hhigh
  interval_cases n <;> rfl

theorem spanDigits_append (hs : ∀ c ∈ s, c.isDigit = true)
    (hrest : ∀ c ∈ rest.head?, c.isDigit = false) : spanDigits (s ++ rest) = (s, rest) := by
  rw [spanDigits, Text.takeWhile_append_of_stop hs hrest, Text.dropWhile_append_of_stop hs hrest]

theorem readExponent_digits (negative : Bool) (sign : List Char) (n : Nat)
    (hsign : splitSign (sign ++ digitsText n) = (negative, digitsText n)) :
    readExponent ('e' :: (sign ++ digitsText n)) = some (if negative then -(n : Int) else n) := by
  have hdigits : (digitsText n).all Char.isDigit = true :=
    List.all_eq_true.mpr fun c => isDigit_of_mem_digitsText
  rw [readExponent, if_pos (by decide), hsign]
  simp [digitsText_ne_nil, hdigits]

theorem readExponent_powerText (plusSign : Bool) (i : Int) :
    readExponent (Spelling.powerText plusSign i) = some i := by
  cases i with
  | ofNat n =>
    have hfirst : ∀ c ∈ (digitsText n).head?, c.isDigit = true := fun c hc =>
      isDigit_of_mem_digitsText (List.mem_of_mem_head? hc)
    have hplus := readExponent_digits false ['+'] n rfl
    have hnone := readExponent_digits false [] n (splitSign_of_isDigit hfirst)
    cases plusSign with
    | true => exact hplus
    | false => exact hnone
  | negSucc n =>
    have hminus := readExponent_digits true ['-'] (n + 1) rfl
    have hmark : (plusSign && decide (0 ≤ Int.negSucc n)) = false := by
      rw [Bool.and_eq_false_iff]
      exact .inr rfl
    rw [Spelling.powerText, hmark]
    exact hminus

/-- **A spelling is read as its decimal.** -/
theorem readUnsigned_text (negative : Bool) (s : Spelling) :
    readUnsigned negative s.text =
      some (ofDecimal negative s.decimal.digits s.decimal.exponent) := by
  have hpower : readExponent (s.power.elim [] (Spelling.powerText s.plusSign)) =
      some (s.power.getD 0) := by
    cases s.power with
    | none => rfl
    | some i => exact readExponent_powerText s.plusSign i
  -- Neither a point nor a mark of a power is a digit, so each run of digits ends where it should.
  have hstop : ∀ c ∈ (s.power.elim [] (Spelling.powerText s.plusSign)).head?,
      c.isDigit = false := by
    cases s.power with
    | none => nofun
    | some i =>
      obtain ⟨tail, htail⟩ := Spelling.exists_powerText s.plusSign i
      rw [Option.elim_some, htail]
      rintro _ ⟨⟩
      rfl
  unfold readUnsigned
  rw [Spelling.text, Spelling.decimal]
  cases hfraction : s.fraction with
  | none =>
    obtain ⟨i, hi⟩ := Option.ne_none_iff_exists'.mp (s.marked hfraction)
    obtain ⟨tail, htail⟩ := Spelling.exists_powerText s.plusSign i
    rw [Option.elim_none, List.nil_append, spanDigits_append s.isDigit_whole hstop]
    rw [hi, Option.elim_some, htail] at hpower ⊢
    simp [s.whole_ne_nil, hpower]
  | some f =>
    have hspan := spanDigits_append (hfraction ▸ s.isDigit_fraction) hstop
    rw [Option.elim_some, List.cons_append, spanDigits_append s.isDigit_whole]
    · simp only
      rw [Option.getD_some] at hspan
      rw [hspan]
      simp [s.whole_ne_nil, hpower]
    · rintro _ ⟨⟩
      rfl

/-! ## Writing spellings -/

theorem isDigit_zeros {k : Nat} {c : Char} (hc : c ∈ zeros k) : c.isDigit = true := by
  rw [List.eq_of_mem_replicate hc]
  rfl

theorem head?_digitsText_of_pos (hn : 0 < n) {tail : List Char} {k : Nat} (hk : 0 < k) :
    ((digitsText n).take k ++ tail).head? ≠ some '0' := by
  obtain ⟨c, digits, htext, -⟩ := exists_digitsText n
  have hfirst := head?_digitsText (Nat.ne_of_gt hn)
  obtain ⟨k, rfl⟩ := Nat.exists_eq_succ_of_ne_zero (Nat.ne_of_gt hk)
  rw [htext] at hfirst ⊢
  exact hfirst

/-- Digits before and after a point are a spelling. -/
theorem exists_pointed {whole fraction : List Char} (hwhole : whole ≠ [])
    (hfirst : whole = ['0'] ∨ whole.head? ≠ some '0') (hfraction : fraction ≠ [])
    (hdigits : ∀ c ∈ whole ++ fraction, c.isDigit = true) : ∃ s : Spelling,
    s.text = whole ++ '.' :: fraction ∧
      s.decimal.number = value (whole ++ fraction) * 10 ^ (-(fraction.length : ℤ)) := by
  refine ⟨{
    whole
    fraction := some fraction
    power := none
    plusSign := false
    whole_ne_nil := hwhole
    isDigit_whole := fun c hc => hdigits c (List.mem_append_left _ hc)
    whole_first := hfirst
    fraction_ne_nil := fun h => hfraction (Option.some.inj h)
    isDigit_fraction := fun c hc => hdigits c (List.mem_append_right _ hc)
    marked := nofun }, ?_, ?_⟩
  · simp [Spelling.text]
  · simp [Spelling.decimal, Digits.number]

/-- **Positional layout is a spelling** of the number with the point at its place. -/
theorem exists_positional (hn : 0 < n) (point : Int) : ∃ s : Spelling,
    s.text = positional (digitsText n) point ∧
      s.decimal.number = n * 10 ^ (point - (digitsText n).length) := by
  have hdigits : ∀ c ∈ digitsText n, c.isDigit = true := fun c => isDigit_of_mem_digitsText
  unfold positional
  split
  · obtain ⟨s, htext, hnumber⟩ := @exists_pointed ['0'] (zeros point.natAbs ++ digitsText n)
      (by simp) (.inl rfl) (by simp [digitsText_ne_nil]) (by
        rw [List.forall_mem_append, List.forall_mem_append]
        exact ⟨List.forall_mem_singleton.mpr rfl, fun c => isDigit_zeros, hdigits⟩)
    have hvalue : value (['0'] ++ (zeros point.natAbs ++ digitsText n)) = n :=
      (value_zeros_append (point.natAbs + 1) (digitsText n)).trans value_digitsText
    refine ⟨s, htext, ?_⟩
    rw [hnumber, hvalue, List.length_append, zeros, List.length_replicate]
    congr 2
    omega
  · have hfirst {tail : List Char} := @head?_digitsText_of_pos n hn tail point.natAbs (by omega)
    by_cases hlong : (digitsText n).length ≤ point.natAbs
    · -- All digits stand before the point, and zeros may follow them.
      have htake := List.take_of_length_le hlong
      have hdrop := List.drop_of_length_le hlong
      obtain ⟨s, htext, hnumber⟩ :=
        @exists_pointed (digitsText n ++ zeros (point.natAbs - (digitsText n).length)) ['0']
          (by simp [digitsText_ne_nil]) (.inr (htake ▸ hfirst)) (by simp) (by
            rw [List.forall_mem_append, List.forall_mem_append]
            exact ⟨⟨hdigits, fun c => isDigit_zeros⟩, List.forall_mem_singleton.mpr rfl⟩)
      have hvalue := value_append_zeros (digitsText n) (point.natAbs - (digitsText n).length + 1)
      rw [value_digitsText, zeros, List.replicate_succ', ← List.append_assoc] at hvalue
      refine ⟨s, ?_, ?_⟩
      · simp only [hdrop, htake, if_true]
        exact htext
      · rw [hnumber, zeros, hvalue, List.length_singleton, Nat.cast_mul, mul_comm (Nat.cast _),
          mul_assoc, Nat.cast_pow, Nat.cast_ofNat, ← zpow_natCast, ← zpow_add₀ (by norm_num)]
        congr 2
        omega
    · -- The point stands among the digits.
      have hzeros : zeros (point.natAbs - (digitsText n).length) = [] := by
        rw [Nat.sub_eq_zero_of_le (by omega)]
        rfl
      have hdrop : (digitsText n).drop point.natAbs ≠ [] := by
        rw [Ne, List.drop_eq_nil_iff]
        exact hlong
      obtain ⟨s, htext, hnumber⟩ :=
        @exists_pointed ((digitsText n).take point.natAbs) ((digitsText n).drop point.natAbs)
          (by simp [digitsText_ne_nil]; omega) (.inr (by simpa using @hfirst [])) hdrop (by
            rw [List.take_append_drop]
            exact hdigits)
      refine ⟨s, ?_, ?_⟩
      · simp only [hzeros, if_neg hdrop, List.append_nil]
        exact htext
      · rw [hnumber, List.take_append_drop, value_digitsText, List.length_drop]
        congr 2
        omega

/-- **Scientific layout is a spelling** of the same number. -/
theorem exists_scientific (layout : Layout) (hn : 0 < n) (point : Int) : ∃ s : Spelling,
    s.text = layout.scientific (digitsText n) point ∧
      s.decimal.number = n * 10 ^ (point - (digitsText n).length) := by
  have hdigits : ∀ c ∈ digitsText n, c.isDigit = true := fun c => isDigit_of_mem_digitsText
  have hfirst := head?_digitsText (Nat.ne_of_gt hn)
  have hvalue := @value_digitsText n
  obtain ⟨c, rest, htext, hc⟩ := exists_digitsText n
  rw [htext] at hdigits hfirst hvalue ⊢
  rw [List.forall_mem_cons] at hdigits
  -- One digit, the others as the fraction, and a power that puts the point back.
  let s : Spelling :=
    { whole := [c]
      fraction := if rest = [] then none else some rest
      power := some (point - 1)
      plusSign := layout.plusSign
      whole_ne_nil := by simp
      isDigit_whole := List.forall_mem_singleton.mpr hc
      whole_first := .inr hfirst
      fraction_ne_nil := by split <;> simp_all
      isDigit_fraction := by split <;> simp_all
      marked := nofun }
  have hrest : s.fraction.getD [] = rest := by
    show (if rest = [] then none else some rest).getD [] = rest
    split <;> simp_all
  refine ⟨s, ?_, ?_⟩
  · show [c] ++ ((if rest = [] then none else some rest).elim [] ('.' :: ·) ++
      Spelling.powerText layout.plusSign (point - 1)) = _
    cases rest <;> simp [Layout.scientific, Spelling.powerText]
  · rw [Digits.number, Spelling.decimal, hrest]
    show (value (c :: rest) : ℚ) * 10 ^ (point - 1 - (rest.length : ℤ)) = _
    rw [hvalue, List.length_cons]
    congr 2
    omega

/-- **The text of a positive decimal is a spelling of it**, in every layout. -/
theorem exists_positive (layout : Layout) {d : Digits} (hd : 0 < d.digits) :
    ∃ s : Spelling, s.text = layout.positive d ∧ s.decimal.number = d.number := by
  have hexponent : ((digitsText d.digits).length + d.exponent : Int) -
      (digitsText d.digits).length = d.exponent := by omega
  unfold Layout.positive
  simp only
  split
  · obtain ⟨s, htext, hnumber⟩ := exists_positional hd ((digitsText d.digits).length + d.exponent)
    exact ⟨s, htext, by rw [hnumber, hexponent, Digits.number]⟩
  · obtain ⟨s, htext, hnumber⟩ :=
      exists_scientific layout hd ((digitsText d.digits).length + d.exponent)
    exact ⟨s, htext, by rw [hnumber, hexponent, Digits.number]⟩

/-! ## Doubles -/

/-- **The text of a double is its sign and a spelling that goes to it.** -/
theorem exists_write (layout : Layout) (negative : Bool) {mantissa : Nat} {exponent : Int}
    (h : IsNormal mantissa exponent) : ∃ s : Spelling,
    layout.write (.finite negative mantissa exponent) =
        (if negative then ['-'] else []) ++ s.text ∧
      ofDecimal negative s.decimal.digits s.decimal.exponent =
        .finite negative mantissa exponent := by
  rw [Layout.write]
  -- Zero is written in digits of its own, and the shortest search is about positive numbers.
  obtain rfl | hpos := Nat.eq_zero_or_pos mantissa
  · obtain ⟨s, htext, hnumber⟩ := @exists_pointed ['0'] ['0'] (by simp) (.inl rfl) (by simp)
      (List.forall_mem_cons.mpr ⟨rfl, List.forall_mem_singleton.mpr rfl⟩)
    have hdigits : s.decimal.digits = 0 := by
      have hzero : s.decimal.number = 0 := by
        rw [hnumber]
        exact zero_mul _
      exact Nat.cast_eq_zero.mp ((mul_eq_zero.mp hzero).resolve_right (ten_zpow_pos _).ne')
    refine ⟨s, by rw [if_pos rfl, htext]; rfl, ?_⟩
    rw [hdigits, h.le.resolve_left (by decide)]
    rfl
  · obtain ⟨s, htext, hnumber⟩ :=
      exists_positive layout (digits_shortest_pos layout.tie hpos h)
    have hrounds := roundsTo_shortest layout.tie hpos h
    rw [← hnumber] at hrounds
    exact ⟨s, by rw [if_neg (Nat.ne_of_gt hpos), htext], ofDecimal_eq hpos h hrounds⟩

theorem readDouble_signed (negative : Bool) (s : Spelling) :
    readDouble ((if negative then ['-'] else []) ++ s.text) =
      .ok (ofDecimal negative s.decimal.digits s.decimal.exponent) := by
  obtain ⟨c, tail, htext, hc⟩ := s.exists_text
  have hread := readUnsigned_text negative s
  have hsign : splitSign ((if negative then ['-'] else []) ++ s.text) = (negative, s.text) := by
    cases negative with
    | true => rfl
    | false =>
      refine splitSign_of_isDigit fun d hd => ?_
      rw [htext] at hd
      cases hd
      exact hc
  -- The words that are read as doubles begin with other characters.
  have hword {word : String} {first : Char} (hfirst : word.toList.head? = some first)
      (hletter : first.isDigit = false) : String.ofList (s.text.map Char.toLower) ≠ word := by
    rintro rfl
    rw [String.toList_ofList, htext, List.map_cons, toLower_of_isDigit hc] at hfirst
    cases hfirst
    rw [hletter] at hc
    cases hc
  have hne : (if negative then ['-'] else []) ++ s.text ≠ [] := by
    rw [htext]
    simp
  rw [readDouble, if_neg hne, hsign]
  simp only
  rw [if_neg, if_neg (hword rfl rfl), hread]
  rw [Bool.or_eq_true, decide_eq_true_eq, decide_eq_true_eq, not_or]
  exact ⟨hword rfl rfl, hword rfl rfl⟩

/-- **A double is read from its text**, whatever layout it is written in. -/
theorem readDouble_write (layout : Layout) {d : Double} (hd : d.IsRepresentable) :
    readDouble (layout.write d) = .ok d := by
  cases d with
  | nan => rfl
  | infinite negative => cases negative <;> rfl
  | finite negative mantissa exponent =>
    obtain ⟨s, htext, hvalue⟩ := exists_write layout negative hd
    rw [htext, readDouble_signed, hvalue]

theorem isRepresentable_of_readUnsigned {negative : Bool} {d : Double}
    (h : readUnsigned negative s = some d) : d.IsRepresentable := by
  obtain ⟨-, h⟩ := Option.ite_none_left_eq_some.mp h
  obtain ⟨e, -, rfl⟩ := Option.map_eq_some_iff.mp h
  exact isRepresentable_ofDecimal ..

/-- **What a reader gives is a double that there is.** -/
theorem isRepresentable_of_readDouble {d : Double} (h : readDouble s = .ok d) :
    d.IsRepresentable := by
  unfold readDouble at h
  split at h
  · cases h
  · simp only at h
    split_ifs at h
    · cases h
      trivial
    · cases h
      trivial
    · split at h
      · rename_i hfound
        cases h
        exact isRepresentable_of_readUnsigned hfound
      · cases h

end CachedRun.Decimal
