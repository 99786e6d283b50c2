import Simplex.Proofs.Checked.Lookup
import Simplex.Proofs.Tableau.BasicPoint
/-! The point that is read off a tableau. Whatever the tableau is and whichever variables are taken
    for nonbasic, the columns that are found for the rows are unit vectors up to the tolerance. A
    column cannot be near two unit vectors when the tolerance is below one half, so no two rows have
    one variable, and every row has its right-hand side at the point, up to what the tolerance lets
    the columns differ from unit vectors. -/

namespace Simplex

/-- Small coefficients make a small sum of products. -/
theorem abs_sum_mul_le {n : ℕ} {a v : ℕ → ℚ} {t : ℚ} (ha : ∀ i < n, |a i| ≤ t) :
    |∑ i ∈ Finset.range n, a i * v i| ≤ t * ∑ i ∈ Finset.range n, |v i| := by
  calc |∑ i ∈ Finset.range n, a i * v i|
    _ ≤ ∑ i ∈ Finset.range n, |a i * v i| := Finset.abs_sum_le_sum_abs _ _
    _ ≤ ∑ i ∈ Finset.range n, t * |v i| := Finset.sum_le_sum fun i hi => by
      rw [abs_mul]
      exact mul_le_mul_of_nonneg_right (ha i (Finset.mem_range.1 hi)) (abs_nonneg _)
    _ = t * ∑ i ∈ Finset.range n, |v i| := (Finset.mul_sum ..).symm

namespace Program
variable {p : Program ℚ} {nonbasic : List ℤ} {B : ℕ → ℕ} {i j k : ℕ}

/-! ### Columns near unit vectors -/

theorem isUnit_iff_near (ht : 0 ≤ p.tolerance) :
    p.isUnit i j = true ↔ ∀ k < p.m, |p.entry k j - if k = i then 1 else 0| ≤ p.tolerance := by
  simp only [isUnit, List.all_eq_true, List.mem_range, Scalar.near_rat ht]

/-- One column is the unit vector of one row at most. -/
theorem row_eq_of_isUnit (ht : 0 ≤ p.tolerance) (hhalf : p.tolerance < 1 / 2) (hi : i < p.m)
    (hij : p.isUnit i j = true) (hkj : p.isUnit k j = true) : i = k := by
  have hone := (isUnit_iff_near ht).1 hij i hi
  have hzero := (isUnit_iff_near ht).1 hkj i hi
  by_contra hik
  rw [if_pos rfl, abs_le] at hone
  rw [if_neg hik, abs_le] at hzero
  linarith [hone.1, hzero.2]

section Candidates
variable (hB : ∀ i < p.m, B i ∈ p.candidates nonbasic i)
include hB

theorem candidates_injective (ht : 0 ≤ p.tolerance) (hhalf : p.tolerance < 1 / 2) (hi : i < p.m)
    (hk : k < p.m) (hik : B i = B k) : i = k := by
  have hunit : p.isUnit k (B k) = true := (mem_candidates.1 (hB k hk)).2.1
  exact row_eq_of_isUnit ht hhalf hi (mem_candidates.1 (hB i hi)).2.1 (hik ▸ hunit)

/-- At the point every row has its value, up to the tolerance times the sum of all values. -/
theorem abs_rowAt_spread_sub_le (ht : 0 ≤ p.tolerance) (v : ℕ → ℚ) (hk : k < p.m) :
    |p.rowAt k (spread p.m B v) - v k| ≤ p.tolerance * ∑ i ∈ Finset.range p.m, |v i| := by
  have hlt : ∀ i < p.m, B i < p.n := fun i hi => (mem_candidates.1 (hB i hi)).1
  have hvalue : ∑ i ∈ Finset.range p.m, (if k = i then 1 else 0) * v i = v k := by
    simp [Finset.sum_ite_eq, hk]
  have herror : p.rowAt k (spread p.m B v) - v k =
      ∑ i ∈ Finset.range p.m, (p.entry k (B i) - if k = i then 1 else 0) * v i := by
    simp only [sub_mul, Finset.sum_sub_distrib, hvalue, rowAt, sum_mul_spread hlt]
  rw [herror]
  exact abs_sum_mul_le fun i hi => (isUnit_iff_near ht).1 (mem_candidates.1 (hB i hi)).2.1 k hk

/-- If the costs of the basic variables are within the tolerance, so is the
    objective, in the same sense. -/
theorem abs_sum_cost_spread_le (hcost : ∀ i < p.m, |p.cost (B i)| ≤ p.tolerance) (v : ℕ → ℚ) :
    |∑ j ∈ Finset.range p.n, p.cost j * spread p.m B v j| ≤ p.tolerance * ∑ i ∈ Finset.range p.m,
      |v i| := by
  rw [sum_mul_spread fun i hi => (mem_candidates.1 (hB i hi)).1]
  exact abs_sum_mul_le hcost

end Candidates

/-! ### Reading -/

/-- The variables that are found for the rows, by row. -/
theorem exists_basis_of_basicVariables {basis : List ℕ}
    (h : p.basicVariables nonbasic = .ok basis) :
    ∃ B : ℕ → ℕ, (∀ i < p.m, B i ∈ p.candidates nonbasic i) ∧ basis = (List.range p.m).map B := by
  obtain ⟨hlength, hmem⟩ := basicVariables_eq_ok h
  refine ⟨fun i => basis.getD i 0, fun i hi => ?_, hlength ▸ eq_map_getD basis 0⟩
  have hi : i < basis.length := hlength.symm ▸ hi
  change basis.getD i 0 ∈ _
  rw [List.getD_eq_getElem _ _ hi]
  exact hmem i hi

/-- The variables that are found are different ones, one for each row, and none of them
    is taken for nonbasic. -/
theorem nodup_of_basicVariables (ht : 0 ≤ p.tolerance) (hhalf : p.tolerance < 1 / 2)
    {basis : List ℕ} (h : p.basicVariables nonbasic = .ok basis) :
    basis.length = p.m ∧ basis.Nodup ∧ ∀ j ∈ basis, j < p.n ∧ (j : ℤ) ∉ nonbasic := by
  obtain ⟨B, hB, rfl⟩ := exists_basis_of_basicVariables h
  refine ⟨by simp, ?_, ?_⟩
  · refine List.Nodup.map_on (fun i hi k hk => ?_) List.nodup_range
    exact candidates_injective hB ht hhalf (List.mem_range.1 hi) (List.mem_range.1 hk)
  · intro j hj
    obtain ⟨i, hi, rfl⟩ := List.mem_map.1 hj
    obtain ⟨hn, -, hmem⟩ := mem_candidates.1 (hB i (List.mem_range.1 hi))
    exact ⟨hn, hmem⟩

/-- The point that is read has the right-hand sides at the variables that are found for the rows. -/
theorem pointAt_solution (ht : 0 ≤ p.tolerance) (hhalf : p.tolerance < 1 / 2)
    (hB : ∀ i < p.m, B i ∈ p.candidates nonbasic i)
    (h : p.basicVariables nonbasic = .ok ((List.range p.m).map B)) :
    ∃ x, p.solution nonbasic = .ok x ∧ x.length = p.n ∧ pointAt x = spread p.m B p.value := by
  have hlt : ∀ i < p.m, B i < p.n := fun i hi => (mem_candidates.1 (hB i hi)).1
  refine ⟨pointOf p.n ((List.range p.m).map B) p.rhs, ?_, length_pointOf _ _ _, ?_⟩
  · rw [solution, h]
    rfl
  · exact pointAt_pointOf rfl hlt (candidates_injective hB ht hhalf)

/-- Wherever the basic variables are found, with a tolerance below one half, they are different
    variables outside the nonbasic ones, one for each row, and the point is read. It has the
    right-hand side of a row at the basic variable of the row and is zero at all others. Every
    row has its right-hand side at the point, up to the tolerance times the sum of all right-hand
    sides; and if no basic variable has a cost above the tolerance, the constant is the objective
    up to the same bound. -/
theorem solution_near (ht : 0 ≤ p.tolerance) (hhalf : p.tolerance < 1 / 2) {basis : List ℕ}
    (h : p.basicVariables nonbasic = .ok basis) :
    (basis.length = p.m ∧ basis.Nodup ∧ ∀ j ∈ basis, j < p.n ∧ (j : ℤ) ∉ nonbasic) ∧
    ∃ x, p.solution nonbasic = .ok x ∧ x.length = p.n ∧
      (∀ i (hi : i < basis.length), pointAt x basis[i] = p.value i) ∧
      (∀ j ∉ basis, pointAt x j = 0) ∧ (∀ j : ℕ, (j : ℤ) ∈ nonbasic → pointAt x j = 0) ∧
      (∀ i < p.m, |p.rowAt i (pointAt x) - p.value i| ≤ p.tolerance * ∑ k ∈ Finset.range p.m,
        |p.value k|) ∧
      (p.tolerance = 0 → p.Solves (pointAt x)) ∧
      ((∀ j ∈ basis, |p.cost j| ≤ p.tolerance) →
        |∑ j ∈ Finset.range p.n, p.cost j * pointAt x j| ≤ p.tolerance * ∑ k ∈ Finset.range p.m,
          |p.value k| ∧
        |p.objectiveAt (pointAt x) - p.constant| ≤ p.tolerance * ∑ k ∈ Finset.range p.m,
          |p.value k|) := by
  refine ⟨nodup_of_basicVariables ht hhalf h, ?_⟩
  obtain ⟨B, hB, rfl⟩ := exists_basis_of_basicVariables h
  obtain ⟨x, hx, hlength, hpoint⟩ := pointAt_solution ht hhalf hB h
  have hrow : ∀ i < p.m, |p.rowAt i (spread p.m B p.value) - p.value i| ≤
      p.tolerance * ∑ k ∈ Finset.range p.m, |p.value k| :=
        fun i hi => abs_rowAt_spread_sub_le hB ht p.value hi
  refine ⟨x, hx, hlength, ?_⟩
  -- the point read off is the column of values, spread over the basic columns
  rw [hpoint]
  refine ⟨?_, ?_, ?_, hrow, ?_, ?_⟩
  · intro i hi
    rw [List.getElem_map, List.getElem_range]
    exact spread_of_injective (candidates_injective hB ht hhalf) p.value (by simpa using hi)
  · intro j hj
    refine spread_eq_zero p.value fun i hi hij => hj ?_
    exact List.mem_map.2 ⟨i, List.mem_range.2 hi, hij⟩
  · intro j hj
    refine spread_eq_zero p.value fun i hi hij => ?_
    exact (mem_candidates.1 (hB i hi)).2.2 (hij ▸ hj)
  · intro hzero i hi
    have hexact := hrow i hi
    rw [hzero, zero_mul] at hexact
    exact sub_eq_zero.1 (abs_nonpos_iff.1 hexact)
  · intro hcost
    have hobjective := abs_sum_cost_spread_le hB
      (fun i hi => hcost (B i) (List.mem_map.2 ⟨i, List.mem_range.2 hi, rfl⟩)) p.value
    refine ⟨hobjective, ?_⟩
    rwa [objectiveAt, add_sub_cancel_left]

/-- Two rows, each with a variable whose column is near its unit vector; the first variable is near
    that of the first row too. -/
def nearUnits : Program ℚ :=
  { objective := .maximize
    costs := [7, 1 / 5, 0]
    constant := 3
    restrictions := List.replicate 3 .nonNegative
    relations := [.equal, .equal]
    rhs := [4, -2]
    rows := [[1, 0, 9 / 10], [1 / 10, 1, 0]]
    standard := true
    simplex := true
    tolerance := 1 / 4 }

/-- With the first variable and two that there are not taken for nonbasic, the first row has four
    for its right-hand side and 18/5 for its value. -/
theorem solution_near_nearUnits : nearUnits.basicVariables [-3, 0, 8] = .ok [2, 1] ∧
    nearUnits.solution [-3, 0, 8] = .ok [0, -2, 4] ∧
    |nearUnits.rowAt 0 (pointAt [0, -2, 4]) - 4| ≤ 1 / 4 * (4 + 2) ∧
    |nearUnits.objectiveAt (pointAt [0, -2, 4]) - 3| ≤ 1 / 4 * (4 + 2) := by
  have hbasis : nearUnits.basicVariables [-3, 0, 8] = .ok [2, 1] := by decide +kernel
  have hsolution : nearUnits.solution [-3, 0, 8] = .ok [0, -2, 4] := by decide +kernel
  have hcost : ∀ j ∈ [2, 1], |nearUnits.cost j| ≤ nearUnits.tolerance := by decide +kernel
  have hsum : nearUnits.tolerance * ∑ k ∈ Finset.range nearUnits.m,
      |nearUnits.value k| = 1 / 4 * (4 + 2) := by
    decide +kernel
  obtain ⟨-, x, hx, -, -, -, -, hrows, -, hobjective⟩ :=
    solution_near (p := nearUnits) (by decide +kernel) (by decide +kernel) hbasis
  rw [hsolution] at hx
  cases hx
  rw [hsum] at hrows hobjective
  exact ⟨hbasis, hsolution, hrows 0 (by decide), (hobjective hcost).2⟩

end Program

end Simplex
