import Mathlib.LinearAlgebra.Matrix.Rank
import Simplex.Proofs.Tableau.BasicPoint
/-! The rank of a program is that of its matrix. Programs with the same solutions have the same
    rank, if they have any solution, and the rank of a tableau with a basis is the number of its
    rows. So however a tableau with a basis was come by, it has as many rows as the program has rows
    that do not follow from the others. -/

namespace Simplex.Program

/-- The coefficients of `m` rows in `n` columns. -/
def coefficients (p : Program ℚ) (m n : ℕ) : Matrix (Fin m) (Fin n) ℚ :=
  Matrix.of fun i j => p.entry i j

/-- The point with the given coordinates, zero beyond them. -/
def extend {n : ℕ} (v : Fin n → ℚ) : Point := fun j => if h : j < n then v ⟨j, h⟩ else 0

section Rank
variable {p q : Program ℚ} {n : ℕ}

/-- The matrix takes a point to the values of the rows. -/
theorem mulVec_coefficients (hn : p.n = n) (v : Fin n → ℚ) (i : Fin p.m) :
    (p.coefficients p.m n).mulVec v i = p.rowAt i (extend v) := by
  change ∑ j : Fin n, p.entry i j * v j = _
  rw [rowAt, hn, Finset.sum_range]
  exact Finset.sum_congr rfl fun j _ => by rw [extend, dif_pos j.2]

theorem rowAt_add (i : ℕ) (x y : Point) : p.rowAt i (x + y) = p.rowAt i x + p.rowAt i y := by
  rw [rowAt, rowAt, rowAt, ← Finset.sum_add_distrib]
  exact Finset.sum_congr rfl fun j _ => mul_add _ _ _

/-- The directions in which one can go from a solution are those in which every row is zero. -/
theorem solves_add_iff {x y : Point} (hx : p.Solves x) :
    p.Solves (x + y) ↔ ∀ i < p.m, p.rowAt i y = 0 := by
  refine forall₂_congr fun i hi => ?_
  rw [rowAt_add, hx i hi, add_eq_left]

/-- What the matrix takes to zero are the directions along the solutions. -/
theorem mem_ker_iff (hn : p.n = n) {x : Point} (hx : p.Solves x) (v : Fin n → ℚ) :
    v ∈ LinearMap.ker (p.coefficients p.m n).mulVecLin ↔ p.Solves (x + extend v) := by
  rw [solves_add_iff hx, LinearMap.mem_ker, Matrix.mulVecLin_apply]
  constructor
  · intro h i hi
    rw [← mulVec_coefficients hn v ⟨i, hi⟩, h]
    rfl
  · intro h
    funext i
    rw [mulVec_coefficients hn v i]
    exact h i i.2

/-- Programs with the same solutions have the same rank. -/
theorem rank_eq_of_solves (hp : p.n = n) (hq : q.n = n) (h : ∀ x, p.Solves x ↔ q.Solves x)
    {x : Point} (hx : p.Solves x) : (p.coefficients p.m n).rank = (q.coefficients q.m n).rank := by
  -- the kernel is what one can add to a solution, whatever the rows are
  have hker : LinearMap.ker (p.coefficients p.m n).mulVecLin =
      LinearMap.ker (q.coefficients q.m n).mulVecLin := by
    ext v
    rw [mem_ker_iff hp hx, mem_ker_iff hq ((h x).1 hx), h]
  have hrank := LinearMap.finrank_range_add_finrank_ker (p.coefficients p.m n).mulVecLin
  rw [hker, ← LinearMap.finrank_range_add_finrank_ker (q.coefficients q.m n).mulVecLin] at hrank
  exact Nat.add_right_cancel hrank

/-- The rows of a tableau with a basis are independent: each stands alone in the column
    of its basic variable. -/
theorem Basis.rank_eq {nonbasic : List ℤ} {B : ℕ → ℕ} (h : p.Basis nonbasic B) (hn : p.n = n) :
    (p.coefficients p.m n).rank = p.m := by
  have hrows : LinearIndependent ℚ (p.coefficients p.m n).row := by
    rw [Fintype.linearIndependent_iff]
    intro a ha k
    have hk : B k < n := hn ▸ h.lt k k.2
    -- in the column of row k every other row is zero
    have hcolumn : ∑ i : Fin p.m, a i * p.entry i (B k) = 0 := by
      have := congrFun ha ⟨B k, hk⟩
      rwa [Finset.sum_apply] at this
    rw [Finset.sum_eq_single k] at hcolumn
    · rwa [h.unit k k.2 k k.2, if_pos rfl, mul_one] at hcolumn
    · intro i _ hik
      rw [h.unit k k.2 i i.2, if_neg (Fin.val_ne_of_ne hik), mul_zero]
    · exact fun hnot => absurd (Finset.mem_univ k) hnot
  rw [hrows.rank_matrix, Fintype.card_fin]

end Rank

end Simplex.Program
