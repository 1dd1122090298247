import CachedRun.Json.Token
import CachedRun.Proofs.Decimal.Digits
import CachedRun.Proofs.Json.Letter

/-!
# JSON tokens — what is written is cut at its seams

A document is written in pieces, one for each token, and it is read by taking tokens off its front.
For punctuation and strings there is no question where a token ends. A numeral goes on as long as it
can, so what comes behind it matters: a comma, a closing bracket or nothing (`Stops`). All parts of
its reader then leave off where they would if that were not there (`Extends`).

`Tokens s ts` says that a text is cut into tokens whatever number of them is allowed for, as long as
it is not less than the length of the text.
-/

set_option autoImplicit false

namespace CachedRun.Json

open Text (Place)

variable {α : Type} {s rest t : List Place}

/-! ## Numerals -/

/-- What may follow a value: nothing, a comma or a closing bracket. -/
def Stops (s : List Place) : Prop :=
  ∀ place ∈ s.head?, place = some ',' ∨ place = some ']' ∨ place = some '\x7d'

/-- A reader that is not led on by what may follow a value. -/
def Extends (read : List Place → Option (α × List Place)) : Prop :=
  ∀ ⦃s x t rest⦄, Stops rest → read s = some (x, t) → read (s ++ rest) = some (x, t ++ rest)

theorem Stops.cases (h : Stops rest) : rest = [] ∨
    ∃ c tail, rest = some c :: tail ∧ (c = ',' ∨ c = ']' ∨ c = '\x7d') := by
  cases rest with
  | nil => exact .inl rfl
  | cons place tail =>
    rcases h place rfl with rfl | rfl | rfl
    · exact .inr ⟨_, _, rfl, .inl rfl⟩
    · exact .inr ⟨_, _, rfl, .inr (.inl rfl)⟩
    · exact .inr ⟨_, _, rfl, .inr (.inr rfl)⟩

theorem spanDigits_append (hrest : Stops rest) :
    spanDigits (s ++ rest) = ((spanDigits s).1, (spanDigits s).2 ++ rest) := by
  induction s with
  | nil => rcases hrest.cases with rfl | ⟨c, tail, rfl, rfl | rfl | rfl⟩ <;> rfl
  | cons place s ih =>
    cases place with
    | none => rfl
    | some c =>
      rw [List.cons_append, spanDigits, spanDigits, ih]
      split <;> rfl

/-- The whole part of a number is read alike in a longer text. A zero in front stands alone, and
other digits run up to the first place that is none. -/
theorem extends_readWhole : Extends readWhole := by
  intro s digits t rest hrest h
  cases s with
  | nil => cases h
  | cons place s =>
    unfold readWhole at h ⊢
    rw [List.cons_append]
    split at h
    · rename_i heq
      cases heq
      cases h
      rfl
    · rename_i hzero
      split
      · rename_i heq
        cases heq
        exact absurd rfl (hzero s)
      · rw [← List.cons_append, spanDigits_append hrest]
        cases hspan : spanDigits (place :: s) with
        | mk found tail =>
          rw [hspan] at h
          cases found with
          | nil => cases h
          | cons d found =>
            cases h
            rfl

/-- A fraction is read alike in a longer text. There is one only behind a point, and then it has
digits. -/
theorem extends_readFraction : Extends readFraction := by
  intro s fraction t rest hrest h
  cases s with
  | nil =>
    cases h
    rcases hrest.cases with rfl | ⟨c, tail, rfl, rfl | rfl | rfl⟩ <;> rfl
  | cons place s =>
    unfold readFraction at h ⊢
    rw [List.cons_append]
    split at h
    · rename_i heq
      cases heq
      simp only
      rw [spanDigits_append hrest]
      cases hspan : spanDigits s with
      | mk found tail =>
        rw [hspan] at h
        cases found with
        | nil => cases h
        | cons d found =>
          cases h
          rfl
    · rename_i hpoint
      cases h
      split
      · rename_i heq
        cases heq
        exact absurd rfl (hpoint s)
      · rfl

/-- Splits off the sign of a power; true for a minus. -/
def splitSign : List Place → Bool × List Place
  | some '-' :: tail => (true, tail)
  | some '+' :: tail => (false, tail)
  | tail => (false, tail)

theorem splitSign_append (hrest : Stops rest) :
    splitSign (s ++ rest) = ((splitSign s).1, (splitSign s).2 ++ rest) := by
  cases s with
  | nil => rcases hrest.cases with rfl | ⟨c, tail, rfl, rfl | rfl | rfl⟩ <;> rfl
  | cons place s =>
    by_cases hminus : place = some '-'
    · subst hminus
      rfl
    by_cases hplus : place = some '+'
    · subst hplus
      rfl
    · simp [splitSign, hminus, hplus]

theorem readPower_mark {c : Char} (hmark : c = 'e' ∨ c = 'E') (s : List Place) :
    readPower (some c :: s) = match spanDigits (splitSign s).2 with
      | ([], _) => none
      | (digits, rest) => some (some (if (splitSign s).1 then -(digitsValue digits : Int)
          else digitsValue digits), rest) := by
  rw [readPower.eq_def]
  exact if_pos hmark

theorem readPower_other {c : Char} (hmark : ¬(c = 'e' ∨ c = 'E')) (s : List Place) :
    readPower (some c :: s) = some (none, some c :: s) := by
  rw [readPower.eq_def]
  exact if_neg hmark

theorem extends_readPower : Extends readPower := by
  intro s power t rest hrest h
  cases s with
  | nil =>
    cases h
    rcases hrest.cases with rfl | ⟨c, tail, rfl, rfl | rfl | rfl⟩ <;> rfl
  | cons place s =>
    cases place with
    | none =>
      cases h
      rfl
    | some c =>
      rw [List.cons_append]
      by_cases hmark : c = 'e' ∨ c = 'E'
      · -- A mark asks for digits, so a text that ends at it was refused.
        rw [readPower_mark hmark] at h ⊢
        rw [splitSign_append hrest, spanDigits_append hrest]
        cases hspan : spanDigits (splitSign s).2 with
        | mk found tail =>
          rw [hspan] at h
          cases found with
          | nil => cases h
          | cons d found =>
            cases h
            rfl
      · rw [readPower_other hmark] at h ⊢
        cases h
        rfl

theorem extends_readNumeral (negative : Bool) : Extends (readNumeral negative) := by
  intro s n t rest hrest h
  unfold readNumeral at h ⊢
  obtain ⟨⟨whole, t₁⟩, hwhole, h⟩ := Option.bind_eq_some_iff.mp h
  obtain ⟨⟨fraction, t₂⟩, hfraction, h⟩ := Option.bind_eq_some_iff.mp h
  obtain ⟨⟨power, t₃⟩, hpower, h⟩ := Option.bind_eq_some_iff.mp h
  cases h
  rw [extends_readWhole hrest hwhole]
  simp only [bind, Option.bind]
  rw [extends_readFraction hrest hfraction]
  simp only
  rw [extends_readPower hrest hpower]
  rfl

/-- The numeral of an integer. -/
def Numeral.ofInt : Int → Numeral
  | .ofNat n => ⟨false, Decimal.digitsText n, none, none⟩
  | .negSucc n => ⟨true, Decimal.digitsText (n + 1), none, none⟩

theorem spanDigits_of_digits {digits : List Char} (h : ∀ c ∈ digits, c.isDigit = true) :
    spanDigits (digits.map some) = (digits, []) := by
  induction digits with
  | nil => rfl
  | cons c digits ih =>
    rw [List.forall_mem_cons] at h
    rw [List.map_cons, spanDigits, if_pos h.1, ih h.2]

theorem readWhole_digitsText (n : Nat) :
    readWhole ((Decimal.digitsText n).map some) = some (Decimal.digitsText n, []) := by
  by_cases hn : n = 0
  · rw [hn]
    rfl
  · have hhead := Decimal.head?_digitsText hn
    have hspan := spanDigits_of_digits (fun c => @Decimal.isDigit_of_mem_digitsText n c)
    obtain ⟨d, digits, htext, -⟩ := Decimal.exists_digitsText n
    rw [htext] at hhead hspan ⊢
    rw [readWhole.eq_def]
    split
    · rename_i heq
      cases heq
      exact absurd rfl hhead
    · rw [hspan]

theorem readNumeral_digitsText (negative : Bool) (n : Nat) :
    readNumeral negative ((Decimal.digitsText n).map some) =
      some (⟨negative, Decimal.digitsText n, none, none⟩, []) := by
  rw [readNumeral, readWhole_digitsText]
  rfl

/-! ## Tokens -/

/-- What a numeral may begin with: a minus or a digit. -/
def BeginsNumeral (s : List Place) : Prop :=
  ∃ c tail, s = some c :: tail ∧ (c = '-' ∨ c.isDigit = true)

theorem readToken_digit {c : Char} (hc : c.isDigit = true) :
    readToken (some c :: s) = (readNumeral false (some c :: s)).map fun (n, rest) =>
      (.number n, rest) := by
  unfold readToken
  -- Of the ways to begin, all but the last begin with something that is no digit.
  split <;> rename_i heq <;> first | rfl | (cases heq; exact absurd hc (by decide))

/-- A text that begins as a numeral is read as one. -/
theorem BeginsNumeral.exists_read (hs : BeginsNumeral s) : ∃ (negative : Bool) (t : List Place),
    ∀ rest, readToken (s ++ rest) =
      (readNumeral negative (t ++ rest)).map fun (n, rest) => (.number n, rest) := by
  obtain ⟨c, tail, rfl, rfl | hc⟩ := hs
  · exact ⟨true, tail, fun rest => rfl⟩
  · exact ⟨false, some c :: tail, fun rest => readToken_digit hc⟩

/-- **A numeral ends where it would at the end of the text.** -/
theorem readToken_append {token : Token} (hs : BeginsNumeral s) (hrest : Stops rest)
    (h : readToken s = some (token, t)) : readToken (s ++ rest) = some (token, t ++ rest) := by
  obtain ⟨negative, tail, hread⟩ := hs.exists_read
  have hempty := hread []
  rw [List.append_nil, List.append_nil, h] at hempty
  obtain ⟨⟨n, t'⟩, hn, heq⟩ := Option.map_eq_some_iff.mp hempty.symm
  cases heq
  rw [hread, extends_readNumeral negative hrest hn]
  rfl

theorem BeginsNumeral.ne_nil (hs : BeginsNumeral s) : s ≠ [] := by
  obtain ⟨c, tail, rfl, hc⟩ := hs
  exact List.cons_ne_nil _ _

theorem BeginsNumeral.dropWhile_eq (hs : BeginsNumeral s) : s.dropWhile isSpace = s := by
  obtain ⟨c, tail, rfl, hc⟩ := hs
  refine List.dropWhile_cons_of_neg fun hspace => ?_
  simp only [isSpace, Bool.or_eq_true, beq_iff_eq, Option.some.injEq] at hspace
  rcases hspace with ((rfl | rfl) | rfl) | rfl <;> exact absurd hc (by decide)

theorem beginsNumeral_intText (i : Int) : BeginsNumeral ((Decimal.intText i).map some) := by
  cases i with
  | ofNat n =>
    obtain ⟨d, digits, htext, hd⟩ := Decimal.exists_digitsText n
    exact ⟨d, digits.map some, congrArg (List.map some) htext, .inr hd⟩
  | negSucc n => exact ⟨'-', _, rfl, .inl rfl⟩

/-- **An integer is cut off as its numeral.** -/
theorem readToken_intText (i : Int) :
    readToken ((Decimal.intText i).map some) = some (.number (.ofInt i), []) := by
  cases i with
  | ofNat n =>
    obtain ⟨d, digits, htext, hd⟩ := Decimal.exists_digitsText n
    have hread := readToken_digit (s := digits.map some) hd
    rw [← List.map_cons, ← htext, readNumeral_digitsText] at hread
    exact hread
  | negSucc n =>
    show (readNumeral true ((Decimal.digitsText (n + 1)).map some)).map _ = _
    rw [readNumeral_digitsText]
    rfl

/-- No token begins with a space. -/
theorem dropWhile_of_readToken {token : Token} (h : readToken s = some (token, rest)) :
    s.dropWhile isSpace = s := by
  cases s with
  | nil => rfl
  | cons place s =>
    refine List.dropWhile_cons_of_neg fun hspace => ?_
    simp only [isSpace, Bool.or_eq_true, beq_iff_eq] at hspace
    rcases hspace with ((rfl | rfl) | rfl) | rfl <;> cases h

/-- A text is cut into tokens, however many are allowed for. -/
def Tokens (s : List Place) (ts : List Token) : Prop :=
  ∀ fuel, s.length ≤ fuel → tokensWithin fuel s = some ts

theorem Tokens.nil : Tokens [] [] := by
  intro fuel _
  cases fuel <;> rfl

/-- What a text is cut into: nothing if it is all spaces, and else its first token and the rest. -/
theorem tokensWithin_eq_some {fuel : Nat} {ts : List Token} (h : tokensWithin fuel s = some ts) :
    (ts = [] ∧ s.dropWhile isSpace = []) ∨ ∃ fuel' token rest ts', ts = token :: ts' ∧
      readToken (s.dropWhile isSpace) = some (token, rest) ∧
      tokensWithin fuel' rest = some ts' := by
  unfold tokensWithin at h
  split at h
  · rename_i heq
    cases h
    exact .inl ⟨rfl, heq⟩
  · cases h
  · rename_i fuel _
    split at h
    · cases h
    · rename_i token rest hread
      obtain ⟨ts', hts, rfl⟩ := Option.map_eq_some_iff.mp h
      exact .inr ⟨fuel, token, rest, ts', rfl, hread, hts⟩

/-- Spaces at the front are no part of a token. -/
theorem tokensWithin_congr {fuel : Nat} (h : s.dropWhile isSpace = t.dropWhile isSpace) :
    tokensWithin fuel s = tokensWithin fuel t := by
  unfold tokensWithin
  rw [h]

theorem tokensWithin_succ {fuel : Nat} {token : Token} (h : readToken s = some (token, rest)) :
    tokensWithin (fuel + 1) s = (tokensWithin fuel rest).map (token :: ·) := by
  cases s with
  | nil => cases h
  | cons place s =>
    rw [tokensWithin.eq_def]
    simp only [dropWhile_of_readToken h, h]

/-- **A chunk with one token is cut off.** Spaces may be left of it. -/
theorem Tokens.cons {ts : List Token} {token : Token} {chunk : List Place} (hchunk : chunk ≠ [])
    (hread : readToken (chunk ++ s) = some (token, t ++ s)) (ht : t.dropWhile isSpace = [])
    (hs : Tokens s ts) : Tokens (chunk ++ s) (token :: ts) := by
  intro fuel hfuel
  -- The chunk has a place of its own, so one token is allowed for besides those of the rest.
  have hlength := List.length_pos_iff.mpr hchunk
  rw [List.length_append] at hfuel
  obtain ⟨fuel, rfl⟩ : ∃ n, fuel = n + 1 := ⟨fuel - 1, by omega⟩
  have hspaces : (t ++ s).dropWhile isSpace = s.dropWhile isSpace := by
    rw [List.dropWhile_append, ht]
    rfl
  rw [tokensWithin_succ hread, tokensWithin_congr hspaces, hs fuel (by omega)]
  rfl

end CachedRun.Json
