import Mathlib.Algebra.BigOperators.Field
import Mathlib.Algebra.BigOperators.Intervals
import Mathlib.Algebra.Order.BigOperators.Group.Finset
import Mathlib.Algebra.Order.Ring.Abs
import Mathlib.Algebra.Order.Ring.Rat
import Mathlib.Tactic.Linarith
import Mathlib.Tactic.Ring
import Simplex.Proofs.Basic
import Simplex.Scalar
/-! Scalars that are rational numbers. The tests are the order of the rationals, and the sums
    that run over lists are sums over ranges of positions, which is the form in which rows and
    columns are added up. -/

namespace Simplex

namespace Scalar

@[simp] theorem lt_rat (a b : ℚ) : lt a b = decide (a < b) := rfl

@[simp] theorem le_rat (a b : ℚ) : le a b = decide (a ≤ b) := rfl

@[simp] theorem eq_rat (a b : ℚ) : eq a b = decide (a = b) := rfl

@[simp] theorem bounded_rat (a : ℚ) : bounded a = true := rfl

@[simp] theorem abs_rat (a : ℚ) : abs a = |a| := by
  change (if a < 0 then -a else a) = |a|
  split_ifs with h
  · exact (abs_of_neg h).symm
  · exact (abs_of_nonneg (not_lt.1 h)).symm

@[simp] theorem near_rat {tol a t : ℚ} (h : 0 ≤ tol) : near tol a t = true ↔ |a - t| ≤ tol := by
  simp only [near, le_rat, eq_rat, abs_rat, Bool.or_eq_true, decide_eq_true_eq, or_iff_left_iff_imp]
  rintro rfl
  simpa using h

theorem clamp_of_nonneg {a : ℚ} (h : 0 ≤ a) : clamp a = a := by
  simp [clamp, not_lt.2 h]

theorem sum_rat (xs : List ℚ) : sum xs = xs.sum := by
  simp [sum, List.sum_eq_foldl]

end Scalar

theorem sum_map_range (f : ℕ → ℚ) (n : ℕ) :
    ((List.range n).map f).sum = ∑ i ∈ Finset.range n, f i := by
  induction n with
  | zero => rfl
  | succ n ih => simp [List.range_succ, Finset.sum_range_succ, ih]

/-- The sum of a list is the sum over its positions. -/
theorem sum_eq_sum_getD (xs : List ℚ) :
    Scalar.sum xs = ∑ i ∈ Finset.range xs.length, xs.getD i 0 := by
  rw [Scalar.sum_rat, ← sum_map_range, ← eq_map_getD]

/-- The product of two lists of one length is a sum over their positions. -/
theorem dot_eq_sum {xs ys : List ℚ} {n : ℕ} (hx : xs.length = n) (hy : ys.length = n) :
    Scalar.dot xs ys = ∑ i ∈ Finset.range n, xs.getD i 0 * ys.getD i 0 := by
  rw [Scalar.dot, sum_eq_sum_getD]
  have hl : (List.zipWith (· * ·) xs ys).length = n := by simp [hx, hy]
  rw [hl]
  refine Finset.sum_congr rfl fun i hi => ?_
  have hi := Finset.mem_range.1 hi
  exact getD_zipWith _ (hx ▸ hi) (hy ▸ hi) 0 0 0

end Simplex
