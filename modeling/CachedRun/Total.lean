/-!
# Totals

The sum of a list of sizes, of counts or of durations.
-/

set_option autoImplicit false

namespace CachedRun

/-- The sum of numbers. -/
def total : List Nat → Nat
  | [] => 0
  | n :: rest => n + total rest

@[simp] theorem total_append (l r : List Nat) : total (l ++ r) = total l + total r := by
  induction l with
  | nil => simp [total]
  | cons n l ih => simp [total, ih, Nat.add_assoc]

/-- The order of what is added does not matter. -/
theorem total_perm {l m : List Nat} (h : l.Perm m) : total l = total m := by
  induction h with
  | nil => rfl
  | cons n _ ih => rw [total, total, ih]
  | swap n k l => simp only [total, Nat.add_left_comm]
  | trans _ _ ih ih' => exact ih.trans ih'

end CachedRun
