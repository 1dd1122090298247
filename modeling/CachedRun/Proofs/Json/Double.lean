import CachedRun.Proofs.Decimal.Layout
import CachedRun.Proofs.Json.Written

/-!
# Doubles in documents — the text of a double is its numeral

A finite double is written into a document as a spelling, and the reader of numerals takes a spelling
apart into the parts that it was made of (`readNumeral_text`), whose value is the double. So finite
doubles are read back (`readsBack`), and so are values whose doubles are ones that there are
(`hasText_of_represented`). Documents give no others (`represented_of_value?`).
-/

set_option autoImplicit false

namespace CachedRun.Json

open Decimal (Spelling)
open Double (IsRepresentable IsNormal)
open Text (Place)

variable {rest : List Place} {digits : List Char}

/-! ## Parts of a numeral -/

/-- A place where digits do not go on. -/
def NoDigit (s : List Place) : Prop := ∀ c : Char, some c ∈ s.head? → c.isDigit = false

theorem spanDigits_append_of_noDigit (hdigits : ∀ c ∈ digits, c.isDigit = true)
    (hrest : NoDigit rest) : spanDigits (digits.map some ++ rest) = (digits, rest) := by
  induction digits with
  | nil =>
    cases rest with
    | nil => rfl
    | cons place rest =>
      cases place with
      | none => rfl
      | some c =>
        rw [List.map_nil, List.nil_append, spanDigits, if_neg]
        rw [hrest c rfl]
        exact Bool.false_ne_true
  | cons c digits ih =>
    rw [List.forall_mem_cons] at hdigits
    rw [List.map_cons, List.cons_append, spanDigits, if_pos hdigits.1, ih hdigits.2]

theorem readWhole_append (hne : digits ≠ []) (hdigits : ∀ c ∈ digits, c.isDigit = true)
    (hfirst : digits = ['0'] ∨ digits.head? ≠ some '0') (hrest : NoDigit rest) :
    readWhole (digits.map some ++ rest) = some (digits, rest) := by
  obtain rfl | hfirst := hfirst
  · rfl
  · have hspan := spanDigits_append_of_noDigit hdigits hrest
    obtain ⟨c, digits, rfl⟩ := List.exists_cons_of_ne_nil hne
    rw [List.map_cons, List.cons_append] at hspan ⊢
    rw [readWhole.eq_def]
    split
    · rename_i heq
      cases heq
      exact absurd rfl hfirst
    · rw [hspan]

/-- The point and the digits behind it. -/
theorem readFraction_append {fraction : Option (List Char)} (hne : fraction ≠ some [])
    (hdigits : ∀ c ∈ fraction.getD [], c.isDigit = true) (hrest : NoDigit rest)
    (hpoint : some '.' ∉ rest.head?) :
    readFraction ((fraction.elim [] ('.' :: ·)).map some ++ rest) = some (fraction, rest) := by
  cases fraction with
  | none =>
    rw [Option.elim_none, List.map_nil, List.nil_append, readFraction.eq_def]
    split
    · exact absurd rfl hpoint
    · rfl
  | some f =>
    have hspan := spanDigits_append_of_noDigit hdigits hrest
    obtain ⟨c, f, rfl⟩ := List.exists_cons_of_ne_nil fun h => hne (congrArg some h)
    rw [Option.getD_some] at hspan
    rw [Option.elim_some, List.map_cons, List.cons_append, readFraction, hspan]

theorem readPower_powerText (plusSign : Bool) (i : Int) :
    readPower ((Spelling.powerText plusSign i).map some) = some (some i, []) := by
  have hread (negative : Bool) (sign : List Place) (n : Nat)
      (hsign : splitSign (sign ++ (Decimal.digitsText n).map some) =
        (negative, (Decimal.digitsText n).map some)) :
      readPower (some 'e' :: (sign ++ (Decimal.digitsText n).map some)) =
        some (some (if negative then -(n : Int) else n), []) := by
    have hvalue : digitsValue (Decimal.digitsText n) = n := Decimal.value_digitsText
    rw [readPower_mark (.inl rfl), hsign,
      spanDigits_of_digits fun c => @Decimal.isDigit_of_mem_digitsText n c]
    obtain ⟨c, tail, htext, -⟩ := Decimal.exists_digitsText n
    rw [htext] at hvalue ⊢
    simp only [hvalue]
  cases i with
  | ofNat n =>
    -- Digits are no sign.
    have hsign : splitSign ((Decimal.digitsText n).map some) =
        (false, (Decimal.digitsText n).map some) := by
      obtain ⟨c, tail, htext, hc⟩ := Decimal.exists_digitsText n
      rw [htext]
      unfold splitSign
      split
      · rename_i heq
        cases heq
        cases hc
      · rename_i heq
        cases heq
        cases hc
      · rfl
    cases plusSign with
    | true => exact hread false [some '+'] n rfl
    | false => exact hread false [] n hsign
  | negSucc n =>
    have hmark : (plusSign && decide (0 ≤ Int.negSucc n)) = false := by
      rw [Bool.and_eq_false_iff]
      exact .inr rfl
    rw [Spelling.powerText, hmark]
    exact hread true [some '-'] (n + 1) rfl

/-! ## Spellings -/

variable (s : Spelling) (negative : Bool)

/-- The numeral of a spelling. -/
def Numeral.ofSpelling : Numeral := ⟨negative, s.whole, s.fraction, s.power⟩

/-- **A spelling is taken apart into its parts.** -/
theorem readNumeral_text :
    readNumeral negative (s.text.map some) = some (.ofSpelling s negative, []) := by
  have hpower : readPower ((s.power.elim [] (Spelling.powerText s.plusSign)).map some) =
      some (s.power, []) := by
    cases s.power with
    | none => rfl
    | some i => exact readPower_powerText s.plusSign i
  -- Behind the digits there is nothing or the mark of the power, which ends any run of digits.
  have hhead : ∀ c : Char,
      some c ∈ ((s.power.elim [] (Spelling.powerText s.plusSign)).map some).head? → c = 'e' := by
    cases s.power with
    | none => nofun
    | some i =>
      obtain ⟨tail, htail⟩ := Spelling.exists_powerText s.plusSign i
      rw [Option.elim_some, htail]
      rintro c ⟨⟩
      rfl
  have hfraction := @readFraction_append ((s.power.elim [] _).map some) _ s.fraction_ne_nil
    s.isDigit_fraction (fun c hc => by rw [hhead c hc]; rfl) (fun hc => by cases hhead _ hc)
  have hwhole := @readWhole_append
    ((s.fraction.elim [] ('.' :: ·)).map some ++ (s.power.elim [] _).map some) _
    s.whole_ne_nil s.isDigit_whole s.whole_first (by
      cases s.fraction with
      | none => exact fun c hc => by rw [hhead c hc]; rfl
      | some f =>
        rintro c ⟨⟩
        rfl)
  rw [readNumeral, Spelling.text, List.map_append, List.map_append, hwhole]
  simp only [bind, Option.bind]
  rw [hfraction]
  simp only
  rw [hpower]
  rfl

/-- A text spells one decimal. -/
theorem decimal_of_text {s t : Spelling} (h : s.text = t.text) : s.decimal = t.decimal := by
  have hs := readNumeral_text s false
  rw [h, readNumeral_text t false] at hs
  injection hs with hs
  injection hs with hs
  injection hs with _ hwhole hfraction hpower
  rw [Spelling.decimal, Spelling.decimal, hwhole, hfraction, hpower]

/-- The value of a spelling is that of its decimal, if it is finite. -/
theorem value?_ofSpelling : (Numeral.ofSpelling s negative).value? =
    finite? (.ofDecimal negative s.decimal.digits s.decimal.exponent) := by
  have hmarked := s.marked
  unfold Numeral.value? Numeral.ofSpelling Spelling.decimal
  split
  · rename_i hfraction hpower
    exact absurd hpower (hmarked hfraction)
  · rfl

/-! ## Doubles -/

/-- **A finite double is cut off as a numeral of which it is the value.** -/
theorem exists_readToken {d : Double} (hd : d.IsRepresentable) (hfinite : d.isFinite = true) :
    ∃ n : Numeral, readToken ((doubleText d).map some) = some (.number n, []) ∧
      n.value? = some (.double d) := by
  cases d with
  | nan => cases hfinite
  | infinite negative => cases hfinite
  | finite negative mantissa exponent =>
    obtain ⟨s, htext, hvalue⟩ := Decimal.exists_write .json negative hd
    refine ⟨.ofSpelling s negative, ?_, ?_⟩
    · have hread := readNumeral_text s negative
      rw [doubleText, if_pos hfinite, htext]
      -- A sign is a token's first character by itself; without one it is a digit.
      cases negative with
      | true =>
        show (readNumeral true (s.text.map some)).map _ = _
        rw [hread]
        rfl
      | false =>
        obtain ⟨c, tail, hcons, hc⟩ := s.exists_text
        rw [hcons] at hread ⊢
        rw [if_neg Bool.false_ne_true, List.nil_append, List.map_cons, readToken_digit hc,
          ← List.map_cons, hread]
        rfl
    · rw [value?_ofSpelling, hvalue, finite?, if_pos hfinite]

/-- A text that is one numeral is read as its value. -/
theorem read?_of_readToken {text : String} {n : Numeral}
    (h : readToken (Text.placesOf text) = some (.number n, [])) : read? text = n.value? := by
  have htokens : tokens (Text.placesOf text) = some [.number n] := by
    have hne : Text.placesOf text ≠ [] := fun hnil => by rw [hnil] at h; cases h
    have hcuts := @Tokens.cons [] [] [] (.number n) (Text.placesOf text) hne (by simpa using h)
      rfl Tokens.nil
    rw [List.append_nil] at hcuts
    exact hcuts _ le_rfl
  show (Unread.ofPlaces? (Text.placesOf text)).bind _ = _
  rw [Unread.ofPlaces?, htokens]
  rfl

/-- **A finite double is read back from its text.** -/
theorem readsBack {d : Double} (hd : d.IsRepresentable) (hfinite : d.isFinite = true) :
    ReadsBack d := by
  obtain ⟨n, hread, hvalue⟩ := exists_readToken hd hfinite
  rw [ReadsBack, read?_of_readToken, hvalue]
  rw [Text.placesOf, String.toList_ofList]
  exact hread

/-! ## Doubles inside a value -/

/-- A double is one that there is. -/
def IsRepresented : Json → Prop
  | .double d => d.IsRepresentable
  | _ => True

theorem aboutDoubles_isRepresented : AboutDoubles IsRepresented where
  null := trivial
  bool _ := trivial
  string _ := trivial
  array _ := trivial
  object _ := trivial
  ofInt _ _ := Double.isRepresentable_nearest one_pos

/-- **A value whose doubles are ones that there are is read back from its text.** -/
theorem hasText_of_represented {j : Json} (h : j.All IsRepresented) : j.All HasText := by
  refine h.mono fun j hj => ?_
  cases j with
  | double d => exact readsBack hj
  | null | bool b | integer i | string s | array items | object fields => trivial

/-- A numeral gives no other doubles. -/
theorem represented_of_value? {numeral : Numeral} {j : Json} (h : numeral.value? = some j) :
    j.All IsRepresented := by
  obtain ⟨i, rfl, -⟩ | ⟨digits, exponent, rfl, -⟩ := value?_cases h
  · trivial
  · exact Double.isRepresentable_ofDecimal digits exponent

end CachedRun.Json
