import Simplex.Proofs.Shape
/-! A pivot on an element that is not zero rewrites every number of a tableau and changes nothing
    that it says: the rows have the same solutions, and at a solution the objective has the same
    value. The new numbers are given by one formula for all columns, since the pivot column, which
    is set exactly, is what the formula yields there. -/

namespace Simplex.Program
variable {p : Program ℚ} {r s : ℕ}

/-! ### The numbers after a pivot -/

theorem row_pivot (hp : p.Rectangular) {i : ℕ} (hi : i < p.m) :
    (p.pivot r s).row i = if i = r then ((p.row r).map (· / p.entry r s)).set s 1
      else (List.zipWith (fun x y => x - (p.entry i s * y) / p.entry r s) (p.row i) (p.row r)).set
        s 0 := by
  have hi : i < p.rows.length := hp.rows ▸ hi
  simp only [row, pivot]
  rw [getD_set (by simpa using hi), getD_map _ hi []]
  rfl

/-- A row other than the pivot row loses its multiple of the pivot row. -/
theorem entry_pivot (hp : p.Rectangular) (hr : r < p.m) (ha : p.entry r s ≠ 0) {i j : ℕ}
    (hi : i < p.m) (hj : j < p.n) :
    (p.pivot r s).entry i j = if i = r then p.entry r j / p.entry r s
      else p.entry i j - p.entry i s * p.entry r j / p.entry r s := by
  have hri : j < (p.row i).length := (row_length hp hi).symm ▸ hj
  have hrr : j < (p.row r).length := (row_length hp hr).symm ▸ hj
  rw [entry, row_pivot hp hi]
  split_ifs with h
  · rw [getD_set (by simpa using hrr), getD_map _ hrr 0]
    split_ifs with hjs
    · rw [hjs, div_self ha]
    · rfl
  · rw [getD_set (by simp [hri, hrr]), getD_zipWith _ hri hrr 0 0]
    split_ifs with hjs
    · rw [hjs, mul_div_cancel_right₀ _ ha, sub_self]
    · rfl

theorem cost_pivot (hp : p.Rectangular) (hr : r < p.m) (ha : p.entry r s ≠ 0) {j : ℕ}
    (hj : j < p.n) :
    (p.pivot r s).cost j = p.cost j - p.entry r j * p.cost s / p.entry r s := by
  have hrr : j < (p.row r).length := (row_length hp hr).symm ▸ hj
  have hc : j < p.costs.length := hj
  simp only [cost, pivot]
  rw [getD_set (by simp [hrr, hc]), getD_zipWith _ hc hrr 0 0]
  split_ifs with hjs
  · rw [hjs]
    exact (by rw [mul_comm, mul_div_cancel_right₀ _ ha, sub_self])
  · rfl

theorem value_pivot (hp : p.Rectangular) {i : ℕ} (hi : i < p.m) :
    (p.pivot r s).value i = if i = r then p.value r / p.entry r s
      else p.value i - p.entry i s * p.value r / p.entry r s := by
  have hb : i < p.rhs.length := hi
  have hA : i < p.rows.length := hp.rows ▸ hi
  simp only [value, pivot]
  rw [getD_set (by simp [hb, hA]), getD_zipWith _ hb hA 0 []]
  rfl

theorem constant_pivot : (p.pivot r s).constant = p.constant + p.cost s * p.value r / p.entry r s :=
  rfl

/-! ### The columns after a pivot -/

theorem column_eq_map_entry (hp : p.Rectangular) (j : ℕ) :
    p.column j = (List.range p.m).map fun i => p.entry i j := by
  refine List.ext_getElem (by simp [column, hp.rows]) fun i hi _ => ?_
  have hi : i < p.rows.length := by simpa [column] using hi
  simp [column, entry, row, hi]

/-- The pivot column becomes the unit vector of the pivot row. -/
theorem entry_pivot_self (hp : p.Rectangular) (hr : r < p.m) (ha : p.entry r s ≠ 0) {i : ℕ}
    (hi : i < p.m) (hs : s < p.n) : (p.pivot r s).entry i s = if i = r then 1 else 0 := by
  rw [entry_pivot hp hr ha hi hs]
  split_ifs
  · exact div_self ha
  · rw [mul_div_cancel_right₀ _ ha, sub_self]

theorem cost_pivot_self (hp : p.Rectangular) (hr : r < p.m) (ha : p.entry r s ≠ 0) (hs : s < p.n) :
    (p.pivot r s).cost s = 0 := by
  rw [cost_pivot hp hr ha hs, mul_comm, mul_div_cancel_right₀ _ ha, sub_self]

/-- A column with a zero in the pivot row stays as it is. -/
theorem entry_pivot_of_zero (hp : p.Rectangular) (hr : r < p.m) (ha : p.entry r s ≠ 0) {i j : ℕ}
    (hi : i < p.m) (hj : j < p.n) (hzero : p.entry r j = 0) :
    (p.pivot r s).entry i j = p.entry i j := by
  rw [entry_pivot hp hr ha hi hj, hzero]
  split_ifs with hir
  · rw [zero_div, hir, hzero]
  · rw [mul_zero, zero_div, sub_zero]

theorem cost_pivot_of_zero (hp : p.Rectangular) (hr : r < p.m) (ha : p.entry r s ≠ 0) {j : ℕ}
    (hj : j < p.n) (hzero : p.entry r j = 0) : (p.pivot r s).cost j = p.cost j := by
  rw [cost_pivot hp hr ha hj, hzero, zero_mul, zero_div, sub_zero]

/-! ### The meaning after a pivot -/

theorem rowAt_pivot (hp : p.Rectangular) (hr : r < p.m) (ha : p.entry r s ≠ 0) (x : Point) {i : ℕ}
    (hi : i < p.m) :
    (p.pivot r s).rowAt i x = if i = r then p.rowAt r x / p.entry r s
      else p.rowAt i x - p.entry i s * p.rowAt r x / p.entry r s := by
  simp only [rowAt, n_pivot hp hr]
  split_ifs with h
  · rw [Finset.sum_div]
    refine Finset.sum_congr rfl fun j hj => ?_
    rw [entry_pivot hp hr ha hi (Finset.mem_range.1 hj), if_pos h]
    ring
  · rw [Finset.mul_sum, Finset.sum_div, ← Finset.sum_sub_distrib]
    refine Finset.sum_congr rfl fun j hj => ?_
    rw [entry_pivot hp hr ha hi (Finset.mem_range.1 hj), if_neg h]
    ring

theorem solves_pivot (hp : p.Rectangular) (hr : r < p.m) (ha : p.entry r s ≠ 0) (x : Point) :
    (p.pivot r s).Solves x ↔ p.Solves x := by
  simp only [Solves, m_pivot hp]
  constructor
  · intro h i hi
    have hpivot : p.rowAt r x = p.value r := by
      have := h r hr
      rwa [rowAt_pivot hp hr ha x hr, value_pivot hp hr, if_pos rfl, if_pos rfl,
        div_left_inj' ha] at this
    by_cases hir : i = r
    · rw [hir, hpivot]
    · have := h i hi
      rwa [rowAt_pivot hp hr ha x hi, value_pivot hp hi, if_neg hir, if_neg hir, hpivot,
        sub_left_inj] at this
  · intro h i hi
    rw [rowAt_pivot hp hr ha x hi, value_pivot hp hi, h r hr, h i hi]

theorem objectiveAt_pivot (hp : p.Rectangular) (hr : r < p.m) (ha : p.entry r s ≠ 0) {x : Point}
    (hx : p.Solves x) : (p.pivot r s).objectiveAt x = p.objectiveAt x := by
  have costs : ∑ j ∈ Finset.range p.n, (p.pivot r s).cost j * x j
      = ∑ j ∈ Finset.range p.n, p.cost j * x j - p.cost s * p.rowAt r x / p.entry r s := by
    rw [rowAt, Finset.mul_sum, Finset.sum_div, ← Finset.sum_sub_distrib]
    refine Finset.sum_congr rfl fun j hj => ?_
    rw [cost_pivot hp hr ha (Finset.mem_range.1 hj)]
    ring
  rw [objectiveAt, objectiveAt, n_pivot hp hr, costs, constant_pivot, hx r hr]
  ring

/-! ### Tableaus of one program -/

/-- `p` says what `q` says: it differs from `q` in its numbers only, has the solutions of `q`, and
    at a solution the objective of `q`. -/
structure TableauOf (q p : Program ℚ) : Prop where
  rectangular : p.Rectangular
  frame : p = { q with constant := p.constant, costs := p.costs, rhs := p.rhs, rows := p.rows }
  n : p.n = q.n
  m : p.m = q.m
  solves : ∀ x, p.Solves x ↔ q.Solves x
  objectiveAt : ∀ x, q.Solves x → p.objectiveAt x = q.objectiveAt x

namespace TableauOf

theorem refl (hp : p.Rectangular) : TableauOf p p :=
  ⟨hp, rfl, rfl, rfl, fun _ => Iff.rfl, fun _ _ => rfl⟩

theorem tolerance {q : Program ℚ} (h : TableauOf q p) : p.tolerance = q.tolerance := by
  rw [h.frame]

theorem pivot {q : Program ℚ} (h : TableauOf q p) (hr : r < p.m) (ha : p.entry r s ≠ 0) :
    TableauOf q (p.pivot r s) := by
  refine ⟨rectangular_pivot h.rectangular hr, ?_, ?_, ?_, ?_, ?_⟩
  · rw [h.frame]
    rfl
  · rw [n_pivot h.rectangular hr, h.n]
  · rw [m_pivot h.rectangular, h.m]
  · intro x
    rw [solves_pivot h.rectangular hr ha, h.solves]
  · intro x hx
    rw [objectiveAt_pivot h.rectangular hr ha ((h.solves x).2 hx), h.objectiveAt x hx]

theorem trans {o q : Program ℚ} (hq : TableauOf o q) (hp : TableauOf q p) : TableauOf o p := by
  refine ⟨hp.rectangular, ?_, hp.n.trans hq.n, hp.m.trans hq.m, ?_, ?_⟩
  · rw [hp.frame, hq.frame]
  · intro x
    rw [hp.solves, hq.solves]
  · intro x hx
    rw [hp.objectiveAt x ((hq.solves x).2 hx), hq.objectiveAt x hx]

end TableauOf

end Simplex.Program
