import CachedRun.Decimal.Shortest
import CachedRun.Proofs.Decimal.Rounding

/-!
# Shortest decimals — what is written goes back to the double

The search for the shortest decimal tries ever finer grids and takes a neighbour of the double that
lies in its interval. So whatever it stops at goes to the double (`roundsTo_search`); and if it does
not stop, the last grid has eighteen digits, which is so fine that the neighbour below lies in the
interval of every double. Zeros at the end are moved into the exponent, which is the same number. So
**the shortest decimal of a double is read as the double** (`ofDecimal_shortest`), whichever way ties
go.
-/

set_option autoImplicit false

namespace CachedRun.Decimal

open Double

variable {n d m p fuel : Nat} {e k : Int} {tie : Tie}

/-! ## Grids -/

theorem onGrid_eq (n d : Nat) (k : Int) : onGrid n d k = scaled 10 n d k := by
  cases k <;> rfl

theorem onGrid_pos (hd : 0 < d) (k : Int) : 0 < (onGrid n d k).2 := by
  rw [onGrid_eq]
  exact scaled_pos (by decide) hd

theorem onGrid_div (n d : Nat) (k : Int) :
    ((onGrid n d k).1 : ℚ) / (onGrid n d k).2 = n / d / 10 ^ k := by
  rw [onGrid_eq]
  exact scaled_div 10 n d k

/-- Fractions of one denominator have one denominator on a grid. -/
theorem onGrid_snd (n n' d : Nat) (k : Int) : (onGrid n d k).2 = (onGrid n' d k).2 := by
  cases k <;> rfl

theorem ten_zpow_pos (k : Int) : (0 : ℚ) < 10 ^ k := zpow_pos (by norm_num) k

theorem onGrid_le_iff (hd : 0 < d) :
    (onGrid n d k).1 ≤ p * (onGrid n d k).2 ↔ (n : ℚ) / d ≤ p * 10 ^ k := by
  have hpos : (0 : ℚ) < (onGrid n d k).2 := by exact_mod_cast onGrid_pos hd k
  rw [← div_le_iff₀ (ten_zpow_pos k), ← onGrid_div, div_le_iff₀ hpos]
  norm_cast

theorem le_onGrid_iff (hd : 0 < d) :
    p * (onGrid n d k).2 ≤ (onGrid n d k).1 ↔ p * 10 ^ k ≤ (n : ℚ) / d := by
  have hpos : (0 : ℚ) < (onGrid n d k).2 := by exact_mod_cast onGrid_pos hd k
  rw [← le_div_iff₀ (ten_zpow_pos k), ← onGrid_div, le_div_iff₀ hpos]
  norm_cast

theorem onGrid_lt_iff (hd : 0 < d) :
    (onGrid n d k).1 < p * (onGrid n d k).2 ↔ (n : ℚ) / d < p * 10 ^ k := by
  rw [← not_le, le_onGrid_iff hd, not_le]

theorem lt_onGrid_iff (hd : 0 < d) :
    p * (onGrid n d k).2 < (onGrid n d k).1 ↔ p * 10 ^ k < (n : ℚ) / d := by
  rw [← not_le, onGrid_le_iff hd, not_le]

/-- The neighbour below a fraction on a grid. -/
theorem floor_onGrid (hd : 0 < d) (hp : (onGrid n d k).1 / (onGrid n d k).2 = p) :
    p * 10 ^ k ≤ (n : ℚ) / d ∧ (n : ℚ) / d < p * 10 ^ k + 10 ^ k := by
  have hpos := onGrid_pos (n := n) hd k
  constructor
  · rw [← le_onGrid_iff hd, ← hp]
    exact Nat.div_mul_le_self ..
  · have hlt : (n : ℚ) / d < (p + 1 : ℕ) * 10 ^ k := by
      rw [← not_le, ← le_onGrid_iff hd, not_le, ← hp]
      exact (Nat.div_lt_iff_lt_mul hpos).mp (Nat.lt_succ_self _)
    push_cast at hlt
    linarith

/-! ## The interval of a double -/

/-- The interval of a positive double on a common denominator. -/
theorem rounded_div (hm : 0 < m) (e : Int) : 0 < (rounded m e).denominator ∧
    ((rounded m e).value : ℚ) / (rounded m e).denominator = m * 2 ^ e ∧
    ((rounded m e).low : ℚ) / (rounded m e).denominator = (m - reach m e) * 2 ^ e ∧
    ((rounded m e).high : ℚ) / (rounded m e).denominator = (m + 1 / 2) * 2 ^ e := by
  -- The interval is that of the quarters around four times the mantissa.
  obtain ⟨scale, denominator, hrounded, hpos, hscale⟩ : ∃ scale denominator : Nat,
      rounded m e = ⟨4 * m * scale,
        (4 * m - if m = Nat.pow 2 52 ∧ e ≠ -1074 then 1 else 2) * scale, (4 * m + 2) * scale,
        denominator, m % 2 = 0⟩ ∧
      0 < denominator ∧ (scale : ℚ) / denominator = 2 ^ e / 4 := by
    have hfour : (2 : ℚ) ^ e / 4 = 2 ^ (e - 2) := by
      rw [zpow_sub₀ two_ne_zero]
      norm_num
    rw [hfour]
    unfold rounded
    cases e - 2 with
    | ofNat k => exact ⟨_, _, rfl, one_pos, by simp⟩
    | negSucc k =>
      refine ⟨_, _, rfl, Nat.pow_pos two_pos, ?_⟩
      rw [zpow_negSucc, natPow_eq]
      push_cast
      rw [one_div]
  have hdiv (x : ℚ) : x * scale / denominator = x / 4 * 2 ^ e := by
    rw [mul_div_assoc, hscale]
    ring
  rw [hrounded]
  refine ⟨hpos, ?_, ?_, ?_⟩
  · push_cast
    rw [hdiv]
    ring
  · unfold reach
    simp only [natPow_eq]
    split
    · rw [Nat.cast_mul, Nat.cast_sub (by omega), hdiv]
      push_cast
      ring
    · rw [Nat.cast_mul, Nat.cast_sub (by omega), hdiv]
      push_cast
      ring
  · push_cast
    rw [hdiv]
    ring

/-- **The interval holds what goes to the double.** -/
theorem holds_iff (hm : 0 < m) :
    (rounded m e).holds p k = true ↔ RoundsTo (p * 10 ^ k) m e := by
  obtain ⟨hpos, -, hlow, hhigh⟩ := rounded_div hm e
  have htwo : (0 : ℚ) < 2 ^ e := zpow_pos two_pos e
  have hsnd := onGrid_snd (rounded m e).low (rounded m e).high (rounded m e).denominator k
  have hclosed : (rounded m e).closed = decide (m % 2 = 0) := rfl
  unfold Rounded.holds
  simp only [hclosed, decide_eq_true_eq]
  split
  · rename_i heven
    rw [Bool.and_eq_true, decide_eq_true_eq, decide_eq_true_eq, onGrid_le_iff hpos, hsnd,
      le_onGrid_iff hpos, hlow, hhigh, ← le_div_iff₀ htwo, ← div_le_iff₀ htwo]
    exact ⟨fun h => ⟨h.1, h.2, fun hodd => by omega⟩, fun h => ⟨h.low, h.high⟩⟩
  · rename_i hodd
    rw [Bool.and_eq_true, decide_eq_true_eq, decide_eq_true_eq, onGrid_lt_iff hpos, hsnd,
      lt_onGrid_iff hpos, hlow, hhigh, ← lt_div_iff₀ htwo, ← div_lt_iff₀ htwo]
    exact ⟨fun h => ⟨h.1.le, h.2.le, fun _ => h⟩, fun h => h.odd (by omega)⟩

/-! ## The search -/

/-- The number that digits stand for. -/
def Digits.number (d : Digits) : ℚ := d.digits * 10 ^ d.exponent

theorem holds_of_onGrid? {r : Rounded} (h : r.onGrid? tie k = some p) : r.holds p k = true := by
  unfold Rounded.onGrid? at h
  simp only at h
  split at h
  · cases h
  · cases h
    assumption
  · cases h
    assumption
  · rename_i hlower hupper
    -- Both neighbours will do, and the nearer one is taken.
    cases tie with
    | up => split_ifs at h <;> cases h <;> assumption
    | even => split_ifs at h <;> cases h <;> assumption

/-- **What the search stops at goes to the double**, if the grid where it has to stop is fine
enough. By induction on the grids that are left. -/
theorem roundsTo_search (hm : 0 < m) (hlast : (10 : ℚ) ^ (k - fuel) < reach m e * 2 ^ e) :
    RoundsTo ((rounded m e).search tie k fuel).number m e := by
  obtain ⟨hpos, hvalue, -, -⟩ := rounded_div hm e
  have htwo : (0 : ℚ) < 2 ^ e := zpow_pos two_pos e
  induction fuel generalizing k with
  -- Out of fuel the search takes the floor on its grid, which is finer than the reach of the
  -- double.
  | zero =>
    rw [Nat.cast_zero, sub_zero] at hlast
    obtain ⟨hbelow, habove⟩ := floor_onGrid (k := k) hpos rfl
    rw [hvalue] at hbelow habove
    have hlow : m - reach m e < Digits.number ((rounded m e).search tie k 0) / 2 ^ e := by
      rw [lt_div_iff₀ htwo, Digits.number, Rounded.search]
      linarith
    have hhigh : Digits.number ((rounded m e).search tie k 0) / 2 ^ e ≤ m := by
      rw [div_le_iff₀ htwo]
      exact hbelow
    exact ⟨hlow.le, by linarith, fun _ => ⟨hlow, by linarith⟩⟩
  | succ fuel ih =>
    rw [Rounded.search]
    split
    · rename_i p hp
      exact (holds_iff hm).mp (holds_of_onGrid? hp)
    · refine ih ?_
      rwa [Nat.cast_succ, ← sub_sub, sub_right_comm] at hlast

theorem number_trimZeros (d : Digits) (fuel : Nat) : (d.trimZeros fuel).number = d.number := by
  induction fuel generalizing d with
  | zero => rfl
  | succ fuel ih =>
    rw [Digits.trimZeros]
    split
    · rename_i hzero
      have hdigits : d.digits = d.digits / 10 * 10 := by omega
      rw [ih, Digits.number, Digits.number, hdigits, zpow_add_one₀ (by norm_num)]
      push_cast
      rw [Nat.mul_div_cancel _ (by decide)]
      ring
    · rfl

/-! ## Where the first digit is -/

theorem zpow_pointPosition_le (hn : 0 < n) (hd : 0 < d) :
    (10 : ℚ) ^ (pointPosition n d - 1) ≤ n / d := by
  have hd' : (0 : ℚ) < d := by exact_mod_cast hd
  unfold pointPosition
  simp only
  split
  · rw [le_div_iff₀ hd']
    calc (10 : ℚ) ^ ((digitCount n : ℤ) - digitCount d - 1) * d
        ≤ 10 ^ ((digitCount n : ℤ) - digitCount d - 1) * 10 ^ (digitCount d : ℤ) :=
          mul_le_mul_of_nonneg_left (digitCount_bounds hd).2.le (ten_zpow_pos _).le
      _ = 10 ^ ((digitCount n : ℤ) - 1) := by
          rw [← zpow_add₀ (by norm_num)]
          congr 1
          ring
      _ ≤ n := (digitCount_bounds hn).1
  · rename_i hlarge
    have hone := @onGrid_lt_iff n d 1 ((digitCount n : ℤ) - digitCount d) hd
    rw [one_mul, Nat.cast_one, one_mul] at hone
    rw [add_sub_cancel_right]
    exact not_lt.mp (hone.not.mp hlarge)

/-! ## The shortest decimal -/

/-- **The shortest decimal of a double goes to it.** The search tries grids from coarse to fine and
stops with a decimal that goes to the double, or at the last grid. That one is fine enough for any
double to have a point of it in reach. -/
theorem roundsTo_shortest (tie : Tie) (hpos : 0 < m) (hm : IsNormal m e) :
    RoundsTo (shortest tie m e).number m e := by
  obtain ⟨hdenominator, hvalue, -, -⟩ := rounded_div hpos e
  have htwo : (0 : ℚ) < 2 ^ e := zpow_pos two_pos e
  have hm' : (m : ℚ) < 2 ^ 53 := by exact_mod_cast hm.lt
  have hnumerator : 0 < (rounded m e).value := by
    refine Nat.pos_of_ne_zero fun hzero => ?_
    rw [hzero, Nat.cast_zero, zero_div] at hvalue
    have : (0 : ℚ) < m * 2 ^ e := mul_pos (by exact_mod_cast hpos) htwo
    linarith
  have hfirst := zpow_pointPosition_le hnumerator hdenominator
  rw [hvalue] at hfirst
  have hreach : (1 / 4 : ℚ) ≤ reach m e := by
    unfold reach
    split_ifs <;> norm_num
  rw [shortest, number_trimZeros]
  refine roundsTo_search hpos ?_
  generalize pointPosition _ _ - 1 = first at *
  -- Seventeen digits are always enough: a grid that fine has a point within every reach.
  calc (10 : ℚ) ^ (first - ((17 : ℕ) : ℤ)) = 10 ^ first * 10 ^ (-17 : ℤ) := by
        rw [← zpow_add₀ (by norm_num)]
        rfl
    _ ≤ m * 2 ^ e * 10 ^ (-17 : ℤ) := mul_le_mul_of_nonneg_right hfirst (ten_zpow_pos _).le
    _ ≤ 2 ^ 53 * 2 ^ e * 10 ^ (-17 : ℤ) := by gcongr
    _ < 1 / 4 * 2 ^ e := by
        norm_num
        linarith
    _ ≤ reach m e * 2 ^ e := by gcongr

theorem digits_shortest_pos (tie : Tie) (hpos : 0 < m) (hm : IsNormal m e) :
    0 < (shortest tie m e).digits := by
  refine Nat.pos_of_ne_zero fun hzero => ?_
  have hlow := (roundsTo_shortest tie hpos hm).low
  rw [Digits.number, hzero, Nat.cast_zero, zero_mul, zero_div] at hlow
  have hone : (1 : ℚ) ≤ m := by exact_mod_cast hpos
  linarith [@reach_le m e]

/-- **The shortest decimal of a double is read as it.** -/
theorem ofDecimal_shortest (tie : Tie) (negative : Bool) (hpos : 0 < m) (hm : IsNormal m e) :
    ofDecimal negative (shortest tie m e).digits (shortest tie m e).exponent =
      .finite negative m e :=
  ofDecimal_eq hpos hm (roundsTo_shortest tie hpos hm)

end CachedRun.Decimal
