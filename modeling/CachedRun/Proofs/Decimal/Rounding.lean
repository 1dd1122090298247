import CachedRun.Decimal.Double
import Mathlib.Algebra.Order.Field.Power
import Mathlib.Data.Rat.Cast.Order
import Mathlib.Tactic.FieldSimp
import Mathlib.Tactic.Linarith
import Mathlib.Tactic.NormNum
import Mathlib.Tactic.Positivity
import Mathlib.Tactic.Ring

/-!
# Rounding — which numbers go to a double

The nearest double is found by exact arithmetic on fractions, in three steps: an exponent from the
lengths of the numbers, a mantissa by rounding, and a carry if rounding takes one bit too many. This
file says in terms of the number itself where it ends up: every number between the midpoints to the
two neighbours of a double goes to it (`RoundsTo`, `nearest_eq`), the midpoints themselves only if
its mantissa is even, and nothing but doubles that there are ever comes out.

Numbers are compared as rationals, with mantissas as what remains of a number divided by its power
of two.
-/

set_option autoImplicit false

namespace CachedRun.Double

variable {n d m k : Nat} {e f : Int} {negative : Bool} {x y : ℚ}

/-- The powers in definitions are those of the lemmas below. -/
theorem natPow_eq (b k : Nat) : Nat.pow b k = b ^ k := rfl

/-! ## Rounding to a natural number -/

/-- A fraction within a half of a number is rounded to it, at a half only if the number is even. -/
theorem roundHalfEven_eq (hd : 0 < d) (hlow : (m : ℚ) - 1 / 2 ≤ n / d)
    (hhigh : (n : ℚ) / d ≤ m + 1 / 2)
    (hodd : m % 2 = 1 → (m : ℚ) - 1 / 2 < n / d ∧ (n : ℚ) / d < m + 1 / 2) :
    roundHalfEven n d = m := by
  have hd' : (0 : ℚ) < d := by exact_mod_cast hd
  have hlow' : 2 * (d * m) ≤ 2 * n + d := by
    rw [le_div_iff₀ hd'] at hlow
    have h : (2 * (d * m) : ℚ) ≤ 2 * n + d := by linarith
    exact_mod_cast h
  have hhigh' : 2 * n ≤ 2 * (d * m) + d := by
    rw [div_le_iff₀ hd'] at hhigh
    have h : (2 * n : ℚ) ≤ 2 * (d * m) + d := by linarith
    exact_mod_cast h
  have hodd' : m % 2 = 1 → 2 * (d * m) < 2 * n + d ∧ 2 * n < 2 * (d * m) + d := by
    intro h
    obtain ⟨h₁, h₂⟩ := hodd h
    rw [lt_div_iff₀ hd'] at h₁
    rw [div_lt_iff₀ hd'] at h₂
    have h₁' : (2 * (d * m) : ℚ) < 2 * n + d := by linarith
    have h₂' : (2 * n : ℚ) < 2 * (d * m) + d := by linarith
    exact ⟨by exact_mod_cast h₁', by exact_mod_cast h₂'⟩
  have hdiv := Nat.div_add_mod n d
  have hmod := Nat.mod_lt n hd
  unfold roundHalfEven
  simp only
  generalize n / d = q at *
  generalize n % d = r at *
  -- The number is the quotient or the one after it.
  obtain rfl | rfl | hq | hq : q = m ∨ m = q + 1 ∨ m + 1 ≤ q ∨ q + 2 ≤ m := by omega
  · split_ifs <;> omega
  · rw [Nat.mul_add, Nat.mul_one] at *
    split_ifs <;> omega
  · have := Nat.mul_le_mul_left d hq
    rw [Nat.mul_add, Nat.mul_one] at this
    omega
  · have := Nat.mul_le_mul_left d hq
    rw [Nat.mul_add] at this
    omega

theorem le_roundHalfEven (hd : 0 < d) (h : (k : ℚ) ≤ n / d) : k ≤ roundHalfEven n d := by
  have hd' : (0 : ℚ) < d := by exact_mod_cast hd
  rw [le_div_iff₀ hd'] at h
  have hk : k ≤ n / d := (Nat.le_div_iff_mul_le hd).mpr (by exact_mod_cast h)
  unfold roundHalfEven
  simp only
  split_ifs <;> omega

theorem roundHalfEven_le (hd : 0 < d) (h : (n : ℚ) / d ≤ k) : roundHalfEven n d ≤ k := by
  have hd' : (0 : ℚ) < d := by exact_mod_cast hd
  rw [div_le_iff₀ hd'] at h
  have hk : n ≤ d * k := by
    rw [mul_comm]
    exact_mod_cast h
  have hdiv := Nat.div_add_mod n d
  unfold roundHalfEven
  simp only
  obtain hlt | heq : n / d < k ∨ n / d = k := lt_or_eq_of_le (Nat.div_le_of_le_mul hk)
  · split_ifs <;> omega
  · rw [heq] at hdiv ⊢
    have hzero : n % d = 0 := by omega
    rw [hzero, if_pos (by omega)]

/-! ## Scaling -/

/-- A fraction over a power of a base. -/
def scaled (base numerator denominator : Nat) : Int → Nat × Nat
  | .ofNat e => (numerator, denominator * base ^ e)
  | .negSucc e => (numerator * base ^ (e + 1), denominator)

theorem unscale_eq (n d : Nat) (e : Int) : unscale n d e = scaled 2 n d e := by
  cases e <;> rfl

theorem scaled_pos {base : Nat} (hbase : 0 < base) (hd : 0 < d) : 0 < (scaled base n d e).2 := by
  cases e with
  | ofNat e => exact Nat.mul_pos hd (Nat.pow_pos hbase)
  | negSucc e => exact hd

theorem scaled_div (base n d : Nat) (e : Int) :
    ((scaled base n d e).1 : ℚ) / (scaled base n d e).2 = n / d / (base : ℚ) ^ e := by
  cases e with
  | ofNat e =>
    rw [scaled, Int.ofNat_eq_natCast, zpow_natCast, div_div]
    push_cast
    rfl
  | negSucc e =>
    rw [scaled, zpow_negSucc, div_inv_eq_mul]
    push_cast
    ring

theorem unscale_pos (hd : 0 < d) (e : Int) : 0 < (unscale n d e).2 := by
  rw [unscale_eq]
  exact scaled_pos two_pos hd

theorem unscale_div (n d : Nat) (e : Int) :
    ((unscale n d e).1 : ℚ) / (unscale n d e).2 = n / d / 2 ^ e := by
  rw [unscale_eq]
  exact scaled_div 2 n d e

/-! ## The exponent of a fraction -/

/-- A number has a mantissa below `2^53` at an exponent, and one of 53 bits unless the exponent is
the least one. -/
structure Fits (x : ℚ) (e : Int) : Prop where
  least : -1074 ≤ e
  lt : x / 2 ^ e < 2 ^ 53
  le : 2 ^ 52 ≤ x / 2 ^ e ∨ e = -1074

theorem div_zpow_lt_iff {x : ℚ} {e k : Int} : x / 2 ^ e < 2 ^ k ↔ x < 2 ^ (k + e) := by
  rw [div_lt_iff₀ (zpow_pos two_pos e), ← zpow_add₀ two_ne_zero]

theorem le_div_zpow_iff {x : ℚ} {e k : Int} : 2 ^ k ≤ x / 2 ^ e ↔ (2 : ℚ) ^ (k + e) ≤ x := by
  rw [le_div_iff₀ (zpow_pos two_pos e), ← zpow_add₀ two_ne_zero]

theorem Fits.le_of_fits (he : Fits x e) (hf : Fits x f) : e ≤ f := by
  by_contra hlt
  have hlow := he.le.resolve_right (by have := hf.least; omega)
  have hhigh := hf.lt
  rw [← zpow_natCast, le_div_zpow_iff] at hlow
  rw [← zpow_natCast, div_zpow_lt_iff] at hhigh
  have hle : (2 : ℚ) ^ (((53 : ℕ) : ℤ) + f) ≤ 2 ^ (((52 : ℕ) : ℤ) + e) :=
    zpow_le_zpow_right₀ one_le_two (by push_cast; omega)
  linarith

theorem Fits.unique (he : Fits x e) (hf : Fits x f) : e = f :=
  le_antisymm (he.le_of_fits hf) (hf.le_of_fits he)

/-- A positive number by the logarithm that is computed. -/
theorem log2_bounds (hn : 0 < n) :
    (2 : ℚ) ^ (n.log2 : ℤ) ≤ n ∧ (n : ℚ) < 2 ^ ((n.log2 : ℤ) + 1) := by
  have hlow := Nat.log2_self_le (Nat.ne_of_gt hn)
  have hhigh := Nat.lt_log2_self (n := n)
  constructor
  · rw [zpow_natCast]
    exact_mod_cast hlow
  · rw [← Nat.cast_succ, zpow_natCast]
    exact_mod_cast hhigh

/-- **The exponent that is computed fits.** The binary logarithms of the two numbers tell the size
of their fraction up to a factor of two on either side, so the exponent is the guessed one or the
one above it. The least exponent bounds both. -/
theorem fits_fitting (hn : 0 < n) (hd : 0 < d) : Fits ((n : ℚ) / d) (fitting n d) := by
  have hd' : (0 : ℚ) < d := by exact_mod_cast hd
  obtain ⟨hnlow, hnhigh⟩ := log2_bounds hn
  obtain ⟨hdlow, hdhigh⟩ := log2_bounds hd
  have hlow : (2 : ℚ) ^ ((n.log2 : ℤ) - d.log2 - 1) < n / d := by
    rw [lt_div_iff₀ hd']
    calc (2 : ℚ) ^ ((n.log2 : ℤ) - d.log2 - 1) * d
        < 2 ^ ((n.log2 : ℤ) - d.log2 - 1) * 2 ^ ((d.log2 : ℤ) + 1) :=
          mul_lt_mul_of_pos_left hdhigh (zpow_pos two_pos _)
      _ = 2 ^ (n.log2 : ℤ) := by
          rw [← zpow_add₀ two_ne_zero]
          congr 1
          ring
      _ ≤ n := hnlow
  have hhigh : (n : ℚ) / d < 2 ^ ((n.log2 : ℤ) - d.log2 + 1) := by
    rw [div_lt_iff₀ hd']
    calc (n : ℚ) < 2 ^ ((n.log2 : ℤ) + 1) := hnhigh
      _ = 2 ^ ((n.log2 : ℤ) - d.log2 + 1) * 2 ^ (d.log2 : ℤ) := by
          rw [← zpow_add₀ two_ne_zero]
          congr 1
          ring
      _ ≤ 2 ^ ((n.log2 : ℤ) - d.log2 + 1) * d :=
          mul_le_mul_of_nonneg_left hdlow (zpow_pos two_pos _).le
  have htest (guess : Int) : (unscale n d guess).2 * Nat.pow 2 53 ≤ (unscale n d guess).1 ↔
      (2 : ℚ) ^ (53 + guess) ≤ n / d := by
    have hpos : (0 : ℚ) < (unscale n d guess).2 := by exact_mod_cast unscale_pos hd guess
    rw [← le_div_zpow_iff, ← unscale_div, le_div_iff₀ hpos, natPow_eq, mul_comm]
    norm_cast
  unfold fitting
  simp only [htest]
  generalize (n.log2 : ℤ) - d.log2 = size at *
  have hpow {a b : ℤ} (h : a ≤ b) : (2 : ℚ) ^ a ≤ 2 ^ b := zpow_le_zpow_right₀ one_le_two h
  -- The least exponent is taken for numbers that are too small for 53 bits.
  split
  · rename_i hlarge
    have hguess : max (-1074) (size - 53) = size - 53 := by
      by_contra hne
      have := hpow (show size + 1 ≤ 53 + max (-1074) (size - 53) by omega)
      linarith
    rw [hguess] at hlarge ⊢
    refine ⟨by omega, ?_, .inl ?_⟩
    · rw [← zpow_natCast, div_zpow_lt_iff]
      exact lt_of_lt_of_le hhigh (hpow (by push_cast; omega))
    · rw [← zpow_natCast, le_div_zpow_iff]
      refine le_trans (hpow ?_) hlarge
      push_cast
      omega
  · rename_i hsmall
    refine ⟨le_max_left .., ?_, ?_⟩
    · rw [← zpow_natCast, div_zpow_lt_iff]
      exact not_le.mp hsmall
    · by_cases hguess : max (-1074) (size - 53) = -1074
      · exact .inr hguess
      · left
        rw [← zpow_natCast, le_div_zpow_iff]
        refine le_trans (hpow ?_) hlow.le
        push_cast
        omega

/-! ## The nearest double -/

/-- The mantissa and the exponent of a double that there is. -/
structure IsNormal (mantissa : Nat) (exponent : Int) : Prop where
  lt : mantissa < 2 ^ 53
  le : 2 ^ 52 ≤ mantissa ∨ exponent = -1074
  least : -1074 ≤ exponent
  greatest : exponent ≤ 971

/-- A double that there is. -/
def IsRepresentable : Double → Prop
  | .finite _ mantissa exponent => IsNormal mantissa exponent
  | _ => True

/-- How far below a mantissa numbers still go to it. Below a power of two the next double is only
half as far. -/
def reach (mantissa : Nat) (exponent : Int) : ℚ :=
  if mantissa = 2 ^ 52 ∧ exponent ≠ -1074 then 1 / 4 else 1 / 2

/-- A number goes to the double `mantissa * 2^exponent`. -/
structure RoundsTo (x : ℚ) (mantissa : Nat) (exponent : Int) : Prop where
  low : mantissa - reach mantissa exponent ≤ x / 2 ^ exponent
  high : x / 2 ^ exponent ≤ mantissa + 1 / 2
  odd : mantissa % 2 = 1 →
    mantissa - reach mantissa exponent < x / 2 ^ exponent ∧ x / 2 ^ exponent < mantissa + 1 / 2

theorem reach_le : reach m e ≤ 1 / 2 := by
  unfold reach
  split_ifs <;> norm_num

/-- The double of a fraction has its exponent and its rounded mantissa, unless that takes a bit too
many and is carried to the exponent above. -/
theorem exists_nearest (negative : Bool) (hn : 0 < n) (hf : fitting n d = f)
    (hm : roundHalfEven (unscale n d f).1 (unscale n d f).2 = m) :
    ∃ mantissa exponent, (m = 2 ^ 53 ∧ mantissa = 2 ^ 52 ∧ exponent = f + 1 ∨
        m ≠ 2 ^ 53 ∧ mantissa = m ∧ exponent = f) ∧
      nearest negative n d =
        if exponent > 971 then .infinite negative else .finite negative mantissa exponent := by
  -- Whether the double is then finite or not, the carry is the same.
  have hcarry {exponent f' : Int} {n' d' mantissa : Nat} (hf' : f' = fitting n d)
      (hscaled : unscale n d f' = (n', d'))
      (hrounded : (if roundHalfEven n' d' = Nat.pow 2 53 then (Nat.pow 2 52, f' + 1)
        else (roundHalfEven n' d', f')) = (mantissa, exponent)) :
      m = 2 ^ 53 ∧ mantissa = 2 ^ 52 ∧ exponent = f + 1 ∨
        m ≠ 2 ^ 53 ∧ mantissa = m ∧ exponent = f := by
    rw [hf', hf] at hscaled hrounded
    rw [hscaled] at hm
    simp only [hm, natPow_eq] at hrounded
    split at hrounded
    · rename_i h
      cases hrounded
      exact .inl ⟨h, rfl, rfl⟩
    · rename_i h
      cases hrounded
      exact .inr ⟨h, rfl, rfl⟩
  fun_cases nearest negative n d
  case case1 hzero => omega
  case case2 hscaled _ mantissa exponent hrounded hlarge =>
    exact ⟨mantissa, exponent, hcarry rfl hscaled hrounded, (if_pos hlarge).symm⟩
  case case3 hscaled _ mantissa exponent hrounded hlarge =>
    exact ⟨mantissa, exponent, hcarry rfl hscaled hrounded, (if_neg hlarge).symm⟩

theorem isRepresentable_nearest (hd : 0 < d) : (nearest negative n d).IsRepresentable := by
  obtain rfl | hn := Nat.eq_zero_or_pos n
  · exact ⟨by decide, .inr rfl, by decide, by decide⟩
  · have hfits := fits_fitting hn hd
    have hpos := unscale_pos (n := n) hd (fitting n d)
    have hle : roundHalfEven (unscale n d (fitting n d)).1 (unscale n d (fitting n d)).2 ≤
        2 ^ 53 := by
      refine roundHalfEven_le hpos ?_
      rw [unscale_div]
      exact_mod_cast hfits.lt.le
    have hleast := hfits.least
    obtain ⟨mantissa, exponent, hcarry, hnearest⟩ := exists_nearest negative hn rfl rfl
    rw [hnearest]
    split
    · trivial
    · rename_i hsmall
      obtain ⟨-, rfl, rfl⟩ | ⟨hne, rfl, rfl⟩ := hcarry
      -- Carried, the mantissa is the least normal one; else it is in range, as it was before
      -- rounding.
      · exact ⟨by decide, .inl le_rfl, by omega, by omega⟩
      · refine ⟨lt_of_le_of_ne hle hne, ?_, hleast, by omega⟩
        refine hfits.le.imp_left fun hle => le_roundHalfEven hpos ?_
        rw [unscale_div]
        exact_mod_cast hle

/-- **What goes to a double is rounded to it.** The exponent that fits is that of the double, except
below a power of two: there it is one less, the mantissa is rounded up to a power of two, and the
carry brings the exponent back. -/
theorem nearest_eq (hn : 0 < n) (hd : 0 < d) (hm : IsNormal m e)
    (hx : RoundsTo ((n : ℚ) / d) m e) : nearest negative n d = .finite negative m e := by
  have hm' : (m : ℚ) ≤ 2 ^ 53 - 1 := by
    have := hm.lt
    rw [le_sub_iff_add_le]
    exact_mod_cast this
  have hgreatest := hm.greatest
  by_cases hstep : (n : ℚ) / d / 2 ^ e < 2 ^ 52 ∧ e ≠ -1074
  · -- The number lies below a power of two and is rounded up to it at the exponent below.
    obtain ⟨hsmall, hne⟩ := hstep
    have hpower : m = 2 ^ 52 := by
      refine le_antisymm ?_ (hm.le.resolve_right hne)
      have hlt : (m : ℚ) < 2 ^ 52 + 1 := by
        have := hx.low
        have := @reach_le m e
        linarith
      exact Nat.lt_succ_iff.mp (by exact_mod_cast hlt)
    have hlow := hx.low
    rw [reach, if_pos ⟨hpower, hne⟩, hpower] at hlow
    have hhalf : (n : ℚ) / d / 2 ^ (e - 1) = 2 * ((n : ℚ) / d / 2 ^ e) := by
      rw [zpow_sub_one₀ two_ne_zero]
      field_simp
    have hf : fitting n d = e - 1 := by
      refine (fits_fitting hn hd).unique ⟨?_, ?_, .inl ?_⟩
      · have := hm.least
        omega
      · rw [hhalf]
        linarith
      · rw [hhalf]
        push_cast at hlow
        linarith
    have hr : roundHalfEven (unscale n d (e - 1)).1 (unscale n d (e - 1)).2 = 2 ^ 53 := by
      refine roundHalfEven_eq (unscale_pos hd _) ?_ ?_ nofun
      · rw [unscale_div, hhalf]
        push_cast at hlow ⊢
        linarith
      · rw [unscale_div, hhalf]
        push_cast
        linarith
    obtain ⟨mantissa, exponent, hcarry, hnearest⟩ := exists_nearest negative hn hf hr
    obtain ⟨-, rfl, rfl⟩ := hcarry.resolve_right fun h => h.1 rfl
    rw [hnearest, sub_add_cancel, if_neg (by omega), hpower]
  -- Otherwise the number has the exponent of the double.
  · have hf : fitting n d = e := by
      refine (fits_fitting hn hd).unique ⟨hm.least, ?_, ?_⟩
      · have := hx.high
        linarith
      · by_cases he : e = -1074
        · exact .inr he
        · exact .inl (not_lt.mp fun hlt => hstep ⟨hlt, he⟩)
    have hr : roundHalfEven (unscale n d e).1 (unscale n d e).2 = m := by
      have hreach := @reach_le m e
      refine roundHalfEven_eq (unscale_pos hd _) ?_ ?_ fun hodd => ?_
      · rw [unscale_div]
        linarith [hx.low]
      · rw [unscale_div]
        exact hx.high
      · rw [unscale_div]
        exact ⟨by linarith [(hx.odd hodd).1], (hx.odd hodd).2⟩
    obtain ⟨mantissa, exponent, hcarry, hnearest⟩ := exists_nearest negative hn hf hr
    obtain ⟨-, rfl, rfl⟩ := hcarry.resolve_left fun h => Nat.ne_of_lt hm.lt h.1
    rw [hnearest, if_neg (by omega)]

/-! ## Decimals -/

theorem half_least : (2 : ℚ) ^ (-1075 : ℤ) = 1 / 2 * 2 ^ (-1074 : ℤ) := by
  rw [show (-1075 : ℤ) = -1074 - 1 by decide, zpow_sub_one₀ two_ne_zero]
  ring

theorem two_pow_lt_ten_pow : (2 : ℚ) ^ (1024 : ℤ) < 10 ^ (309 : ℤ) := by
  have h : (2 : ℕ) ^ 1024 < 10 ^ 309 := by decide +kernel
  exact_mod_cast h

theorem ten_pow_lt_two_pow : (10 : ℚ) ^ (-330 : ℤ) < 2 ^ (-1075 : ℤ) := by
  have h : (2 : ℕ) ^ 1075 < 10 ^ 330 := by decide +kernel
  rw [zpow_neg, zpow_neg]
  refine inv_strictAnti₀ (by positivity) ?_
  exact_mod_cast h

theorem digitCount_bounds (hn : 0 < n) :
    (10 : ℚ) ^ ((digitCount n : ℤ) - 1) ≤ n ∧ (n : ℚ) < 10 ^ (digitCount n : ℤ) := by
  have hlength (k : Nat) (hk : 0 < k) : digitCount n ≤ k ↔ n < 10 ^ k :=
    Nat.length_toDigits_le_iff (by decide) hk
  have hpos : 0 < digitCount n := List.length_pos_iff.mpr Nat.toDigits_ne_nil
  constructor
  · obtain ⟨k, hk⟩ : ∃ k, digitCount n = k + 1 := ⟨digitCount n - 1, by omega⟩
    rw [hk, Nat.cast_succ, add_sub_cancel_right, zpow_natCast]
    obtain rfl | hk' := Nat.eq_zero_or_pos k
    · exact_mod_cast hn
    · have hle : 10 ^ k ≤ n := not_lt.mp fun h => by
        have := (hlength k hk').mpr h
        omega
      exact_mod_cast hle
  · rw [zpow_natCast]
    exact_mod_cast (hlength _ hpos).mp le_rfl

theorem isRepresentable_ofDecimal (digits : Nat) (exponent : Int) :
    (ofDecimal negative digits exponent).IsRepresentable := by
  have hzero : (zero negative).IsRepresentable := ⟨by decide, .inr rfl, by decide, by decide⟩
  unfold ofDecimal
  simp only
  split_ifs
  · exact hzero
  · trivial
  · exact hzero
  · cases exponent with
    | ofNat e => exact isRepresentable_nearest one_pos
    | negSucc e => exact isRepresentable_nearest (Nat.pow_pos (by decide))

/-- **A decimal that goes to a double is read as it.** The tests for decimals that are out of any
range come first, so it has to be shown that this one passes them. -/
theorem ofDecimal_eq {digits : Nat} {exponent : Int} (hpos : 0 < m) (hm : IsNormal m e)
    (hx : RoundsTo (digits * 10 ^ exponent) m e) :
    ofDecimal negative digits exponent = .finite negative m e := by
  have htwo (k : Int) : (0 : ℚ) < 2 ^ k := zpow_pos two_pos k
  have hten (k : Int) : (0 : ℚ) < 10 ^ k := zpow_pos (by norm_num) k
  have hle {a b : Int} (h : a ≤ b) : (2 : ℚ) ^ a ≤ 2 ^ b := zpow_le_zpow_right₀ one_le_two h
  have hle' {a b : Int} (h : a ≤ b) : (10 : ℚ) ^ a ≤ 10 ^ b :=
    zpow_le_zpow_right₀ (by norm_num) h
  -- The decimal lies between the least and the greatest double.
  have hlow : (2 : ℚ) ^ (-1075 : ℤ) ≤ digits * 10 ^ exponent := by
    have hhalf : (1 / 2 : ℚ) ≤ digits * 10 ^ exponent / 2 ^ e := by
      have hone : (1 : ℚ) ≤ m := by exact_mod_cast hpos
      linarith [hx.low, @reach_le m e]
    rw [le_div_iff₀ (htwo e)] at hhalf
    calc (2 : ℚ) ^ (-1075 : ℤ) = 1 / 2 * 2 ^ (-1074 : ℤ) := half_least
      _ ≤ 1 / 2 * 2 ^ e := by linarith [hle hm.least]
      _ ≤ digits * 10 ^ exponent := hhalf
  have hhigh : (digits : ℚ) * 10 ^ exponent < 2 ^ (1024 : ℤ) := by
    have hlt : (digits : ℚ) * 10 ^ exponent / 2 ^ e < 2 ^ 53 := by
      have hm' : (m : ℚ) + 1 ≤ 2 ^ 53 := by exact_mod_cast hm.lt
      linarith [hx.high]
    rw [div_lt_iff₀ (htwo e)] at hlt
    calc (digits : ℚ) * 10 ^ exponent < 2 ^ 53 * 2 ^ e := hlt
      _ ≤ 2 ^ 53 * 2 ^ (971 : ℤ) := by linarith [hle hm.greatest]
      _ = 2 ^ (1024 : ℤ) := by
          rw [← zpow_natCast, ← zpow_add₀ two_ne_zero]
          rfl
  have hdigits : 0 < digits := by
    refine Nat.pos_of_ne_zero fun hzero => ?_
    rw [hzero, Nat.cast_zero, zero_mul] at hlow
    linarith [htwo (-1075)]
  obtain ⟨hleast, hgreatest⟩ := digitCount_bounds hdigits
  -- So it is neither too large nor too small for the tests, which count its digits.
  have hmagnitude : ¬(digitCount digits : ℤ) + exponent > 310 := by
    intro h
    have hfirst : (10 : ℚ) ^ (309 : ℤ) ≤ digits * 10 ^ exponent := by
      calc (10 : ℚ) ^ (309 : ℤ) ≤ 10 ^ ((digitCount digits : ℤ) - 1 + exponent) := hle' (by omega)
        _ = 10 ^ ((digitCount digits : ℤ) - 1) * 10 ^ exponent := zpow_add₀ (by norm_num) ..
        _ ≤ digits * 10 ^ exponent := mul_le_mul_of_nonneg_right hleast (hten _).le
    exact lt_asymm two_pow_lt_ten_pow (hfirst.trans_lt hhigh)
  have hmagnitude' : ¬(digitCount digits : ℤ) + exponent < -330 := by
    intro h
    have hlast : (digits : ℚ) * 10 ^ exponent < 10 ^ (-330 : ℤ) := by
      calc (digits : ℚ) * 10 ^ exponent < 10 ^ (digitCount digits : ℤ) * 10 ^ exponent :=
          mul_lt_mul_of_pos_right hgreatest (hten _)
        _ = 10 ^ ((digitCount digits : ℤ) + exponent) := (zpow_add₀ (by norm_num) ..).symm
        _ ≤ 10 ^ (-330 : ℤ) := hle' (by omega)
    exact lt_asymm ten_pow_lt_two_pow (hlow.trans_lt hlast)
  unfold ofDecimal
  simp only
  rw [if_neg (Nat.ne_of_gt hdigits), if_neg hmagnitude, if_neg hmagnitude']
  cases exponent with
  | ofNat e' =>
    refine nearest_eq (Nat.mul_pos hdigits (Nat.pow_pos (by decide))) one_pos hm ?_
    rw [Int.ofNat_eq_natCast, zpow_natCast] at hx
    rw [Nat.cast_one, div_one, natPow_eq]
    exact_mod_cast hx
  | negSucc e' =>
    refine nearest_eq hdigits (Nat.pow_pos (by decide)) hm ?_
    rw [zpow_negSucc, ← div_eq_mul_inv] at hx
    rw [natPow_eq]
    exact_mod_cast hx

end CachedRun.Double
