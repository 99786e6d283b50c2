import Simplex.Proofs.Column
import Simplex.Proofs.Tableau.Search
import Simplex.Tableau.Auxiliary
/-! The program of the first phase. Its artificial variables are a feasible basis, whatever the
    weights. Where they are all zero it says what the program itself says, and under signed weights
    its objective is the negated sum of them, so the program has a feasible point just if the
    greatest value is zero. -/

namespace Simplex.Program

/-! ### Signs -/

section Signs
variable {p : Program ℚ} {i : ℕ}

theorem row_normalizeSigns (hp : p.Rectangular) (hi : i < p.m) :
    p.normalizeSigns.row i = if p.value i < 0 then (p.row i).map (- ·) else p.row i := by
  simp only [row, value, normalizeSigns, Scalar.lt_rat, decide_eq_true_eq]
  exact getD_zipWith _ hi (hp.rows ▸ hi) 0 [] []

theorem value_normalizeSigns (hi : i < p.m) :
    p.normalizeSigns.value i = if p.value i < 0 then -p.value i else p.value i := by
  simp only [value, normalizeSigns, Scalar.lt_rat, decide_eq_true_eq]
  exact getD_map _ hi 0 0

theorem value_normalizeSigns_nonneg (hi : i < p.m) : 0 ≤ p.normalizeSigns.value i := by
  rw [value_normalizeSigns hi]
  split_ifs with h
  · exact (neg_pos.2 h).le
  · exact not_lt.1 h

theorem rowAt_normalizeSigns (hp : p.Rectangular) (hi : i < p.m) (x : Point) :
    p.normalizeSigns.rowAt i x = if p.value i < 0 then -p.rowAt i x else p.rowAt i x := by
  have hrow := row_normalizeSigns hp hi
  split_ifs with h
  · exact rowAt_of_row_neg p.normalizeSigns hp rfl hi (hrow.trans (if_pos h)) x
  · rw [if_neg h] at hrow
    simp only [rowAt, entry, hrow, n_normalizeSigns]

/-- A constraint and its negation have the same solutions. -/
theorem rowAt_normalizeSigns_eq_iff (hp : p.Rectangular) (hi : i < p.m) (x : Point) :
    p.normalizeSigns.rowAt i x = p.normalizeSigns.value i ↔ p.rowAt i x = p.value i := by
  rw [rowAt_normalizeSigns hp hi, value_normalizeSigns hi]
  split_ifs
  · exact neg_inj
  · exact Iff.rfl

end Signs

/-! ### Weights -/

section Weights
variable {p : Program ℚ}

@[simp] theorem rowAt_auxiliaryObjective (absolute : Bool) (i : ℕ) (x : Point) :
    (p.auxiliaryObjective absolute).rowAt i x = p.rowAt i x := by
  rw [rowAt, n_auxiliaryObjective]
  rfl

/-- The signed weight of a column is the sum of its coefficients. -/
theorem cost_auxiliaryObjective (hp : p.Rectangular) {j : ℕ} (hj : j < p.n) :
    (p.auxiliaryObjective false).cost j = ∑ i ∈ Finset.range p.m, p.entry i j := by
  have hlen : (p.column j).length = p.m := by simp [column, hp.rows]
  have hcost : (p.auxiliaryObjective false).cost j = p.weight false j := getD_map_range _ hj 0
  rw [hcost, weight, if_neg Bool.false_ne_true, sum_eq_sum_getD, hlen]
  exact Finset.sum_congr rfl fun i hi =>
    getD_map _ (hp.rows ▸ Finset.mem_range.1 hi) [] 0

/-- Under signed weights the objective adds up what the rows lack to their right-hand sides. -/
theorem objectiveAt_auxiliaryObjective (hp : p.Rectangular) (x : Point) :
    (p.auxiliaryObjective false).objectiveAt x =
      ∑ i ∈ Finset.range p.m, (p.rowAt i x - p.value i) := by
  have hcosts : ∑ j ∈ Finset.range p.n, (p.auxiliaryObjective false).cost j * x j =
      ∑ i ∈ Finset.range p.m, p.rowAt i x := by
    simp only [rowAt]
    rw [Finset.sum_comm]
    refine Finset.sum_congr rfl fun j hj => ?_
    rw [cost_auxiliaryObjective hp (Finset.mem_range.1 hj), Finset.sum_mul]
  have hconstant : (p.auxiliaryObjective false).constant = -∑ i ∈ Finset.range p.m, p.value i :=
    congrArg (- ·) (sum_eq_sum_getD p.rhs)
  rw [objectiveAt, n_auxiliaryObjective, hcosts, hconstant, Finset.sum_sub_distrib]
  ring

end Weights

/-! ### Artificial variables -/

/-- The first `k` constraints of `p` have an artificial variable in `r`. -/
structure Extended (p : Program ℚ) (k : ℕ) (r : Program ℚ) : Prop where
  rectangular : r.Rectangular
  n : r.n = p.n + k
  m : r.m = p.m
  value : ∀ i, r.value i = p.value i
  tolerance : r.tolerance = p.tolerance
  unit : ∀ l < k, ∀ i < p.m, r.entry i (p.n + l) = if i = l then 1 else 0
  cost : ∀ l < k, r.cost (p.n + l) = 0
  rowAt : ∀ i < p.m, ∀ x, r.rowAt i x = p.rowAt i x + if i < k then x (p.n + i) else 0
  objectiveAt : ∀ x, r.objectiveAt x = p.objectiveAt x

section Artificials
variable {p r : Program ℚ} {k : ℕ}

theorem Extended.step (h : Extended p k r) :
    Extended p (k + 1) (r.appendVariable 0 (Scalar.unit p.m k) .nonNegative) := by
  have hlen : (Scalar.unit p.m k : List ℚ).length = r.m := by rw [length_unit, h.m]
  refine ⟨rectangular_appendVariable h.rectangular hlen, ?_, h.m, h.value, h.tolerance, ?_,
    ?_, ?_, ?_⟩
  · rw [n_appendVariable, h.n, Nat.add_assoc]
  · intro l hl i hi
    have hir : i < r.m := h.m.symm ▸ hi
    rcases Nat.lt_succ_iff_lt_or_eq.1 hl with hl | rfl
    · rw [entry_appendVariable h.rectangular hlen hir (by rw [h.n]; omega), h.unit l hl i hi]
    · rw [← h.n, entry_appendVariable_n h.rectangular hlen hir, getD_unit l hi]
  · intro l hl
    rcases Nat.lt_succ_iff_lt_or_eq.1 hl with hl | rfl
    · rw [cost_appendVariable (by rw [h.n]; omega), h.cost l hl]
    · rw [← h.n, cost_appendVariable_n]
  · intro i hi x
    rw [rowAt_appendVariable h.rectangular hlen (h.m.symm ▸ hi), h.rowAt i hi, getD_unit k hi, h.n]
    rcases lt_trichotomy i k with hlt | rfl | hgt
    · rw [if_pos hlt, if_neg hlt.ne, if_pos (by omega), zero_mul, add_zero]
    · rw [if_neg (lt_irrefl i), if_pos rfl, if_pos (Nat.lt_succ_self i), one_mul, add_zero]
    · rw [if_neg hgt.not_gt, if_neg hgt.ne', if_neg (by omega), zero_mul, add_zero]
  · intro x
    rw [objectiveAt_appendVariable, zero_mul, add_zero, h.objectiveAt]

theorem extended_addArtificials (hp : p.Rectangular) : Extended p p.m p.addArtificials := by
  have go : ∀ k, Extended p k (p.artificials k) := by
    intro k
    induction k with
    | zero =>
      exact ⟨hp, rfl, rfl, fun _ => rfl, rfl, fun l hl => absurd hl l.not_lt_zero,
        fun l hl => absurd hl l.not_lt_zero, fun i _ x => by simp [artificials], fun _ => rfl⟩
    | succ k ih =>
      rw [artificials_succ]
      exact ih.step
  exact go p.m

end Artificials

/-! ### The auxiliary program -/

section Auxiliary
variable {p : Program ℚ} {absolute : Bool}

theorem extended_auxiliary (hp : p.Rectangular) (absolute : Bool) :
    Extended (p.normalizeSigns.auxiliaryObjective absolute) p.m (p.auxiliary absolute) := by
  have h := extended_addArtificials
    (rectangular_auxiliaryObjective (rectangular_normalizeSigns hp) absolute)
  have hm : (p.normalizeSigns.auxiliaryObjective absolute).m = p.m := m_normalizeSigns
  rw [hm] at h
  exact ⟨⟨h.rectangular.rows, h.rectangular.row⟩, h.n, h.m, h.value, h.tolerance, h.unit, h.cost,
    h.rowAt, h.objectiveAt⟩

theorem rectangular_auxiliary (hp : p.Rectangular) : (p.auxiliary absolute).Rectangular :=
  (extended_auxiliary hp absolute).rectangular

theorem n_auxiliary (hp : p.Rectangular) : (p.auxiliary absolute).n = p.n + p.m := by
  rw [(extended_auxiliary hp absolute).n, n_auxiliaryObjective, n_normalizeSigns]

theorem m_auxiliary (hp : p.Rectangular) : (p.auxiliary absolute).m = p.m :=
  (extended_auxiliary hp absolute).m.trans m_normalizeSigns

theorem tolerance_auxiliary (hp : p.Rectangular) : (p.auxiliary absolute).tolerance = p.tolerance :=
  (extended_auxiliary hp absolute).tolerance

theorem value_auxiliary_nonneg (hp : p.Rectangular) {i : ℕ} (hi : i < (p.auxiliary absolute).m) :
    0 ≤ (p.auxiliary absolute).value i := by
  rw [(extended_auxiliary hp absolute).value]
  exact value_normalizeSigns_nonneg (m_auxiliary hp ▸ hi)

/-- The artificial variables are a basis. -/
theorem basis_auxiliary (hp : p.Rectangular) :
    (p.auxiliary absolute).Basis (IndexSet.below p.n) (p.n + ·) := by
  have h := extended_auxiliary hp absolute
  have hn : (p.normalizeSigns.auxiliaryObjective absolute).n = p.n := n_auxiliaryObjective absolute
  have hm : (p.normalizeSigns.auxiliaryObjective absolute).m = p.m := m_normalizeSigns
  have hunit := h.unit
  have hcost := h.cost
  rw [hn, hm] at hunit
  rw [hn] at hcost
  refine ⟨?_, ?_, ?_, ?_⟩
  · intro i hi
    rw [m_auxiliary hp] at hi
    rw [n_auxiliary hp]
    omega
  · intro i hi k hk
    rw [m_auxiliary hp] at hi hk
    exact hunit i hi k hk
  · intro i hi
    exact hcost i (m_auxiliary hp ▸ hi)
  · intro j hj
    rw [n_auxiliary hp] at hj
    rw [m_auxiliary hp, IndexSet.mem_below]
    constructor
    · intro hlt i _
      omega
    · intro hne
      -- a column from p.n on is the artificial one of row j - p.n
      by_contra hge
      exact hne (j - p.n) (by omega) (by omega)

theorem rowAt_auxiliary (hp : p.Rectangular) {i : ℕ} (hi : i < p.m) (x : Point) :
    (p.auxiliary absolute).rowAt i x = p.normalizeSigns.rowAt i x + x (p.n + i) := by
  have h := extended_auxiliary hp absolute
  rw [h.rowAt i ((m_normalizeSigns (p := p)).symm ▸ hi), rowAt_auxiliaryObjective, if_pos hi,
    n_auxiliaryObjective, n_normalizeSigns]

/-- Where the artificial variables are zero, the auxiliary program says what the program says. -/
theorem solves_auxiliary_iff (hp : p.Rectangular) {x : Point} (hx : ∀ i < p.m, x (p.n + i) = 0) :
    (p.auxiliary absolute).Solves x ↔ p.Solves x := by
  rw [Solves, m_auxiliary hp, Solves]
  refine forall₂_congr fun i hi => ?_
  rw [rowAt_auxiliary hp hi, hx i hi, add_zero, (extended_auxiliary hp absolute).value]
  exact rowAt_normalizeSigns_eq_iff hp hi x

/-- Under signed weights the objective at a solution is the negated sum of the
    artificial variables. -/
theorem objectiveAt_auxiliary (hp : p.Rectangular) {x : Point} (hx : (p.auxiliary false).Solves x) :
    (p.auxiliary false).objectiveAt x = -∑ i ∈ Finset.range p.m, x (p.n + i) := by
  have h := extended_auxiliary hp false
  rw [h.objectiveAt, objectiveAt_auxiliaryObjective (rectangular_normalizeSigns hp),
    m_normalizeSigns, ← Finset.sum_neg_distrib]
  refine Finset.sum_congr rfl fun i hi => ?_
  have hi := Finset.mem_range.1 hi
  have hrow := hx i (m_auxiliary hp ▸ hi)
  rw [rowAt_auxiliary hp hi, h.value] at hrow
  change _ = p.normalizeSigns.value i at hrow
  linarith

end Auxiliary

end Simplex.Program
