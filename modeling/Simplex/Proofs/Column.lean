import Simplex.Proofs.Shape
/-! A program with one more variable. The new last column adds its multiple to the value of every
    row, and the new cost to the objective; all that concerns the old variables stays as it was.
    Slack variables, negative parts and artificial variables are all of this kind. -/

namespace Simplex

theorem getD_unit {m k : ℕ} (i : ℕ) (hk : k < m) :
    (Scalar.unit m i : List ℚ).getD k 0 = if k = i then 1 else 0 :=
  getD_map_range _ hk 0

namespace Program
variable {p : Program ℚ} {c : ℚ} {column : List ℚ} {kind : Restriction}

theorem row_appendVariable (hp : p.Rectangular) (hc : column.length = p.m) {i : ℕ} (hi : i < p.m) :
    (p.appendVariable c column kind).row i = p.row i ++ [column.getD i 0] :=
  getD_zipWith _ (hp.rows ▸ hi) (hc ▸ hi) [] 0 []

theorem entry_appendVariable (hp : p.Rectangular) (hc : column.length = p.m) {i j : ℕ}
    (hi : i < p.m) (hj : j < p.n) : (p.appendVariable c column kind).entry i j = p.entry i j := by
  rw [entry, row_appendVariable hp hc hi, List.getD_append _ _ _ _ (row_length hp hi ▸ hj)]
  rfl

theorem entry_appendVariable_n (hp : p.Rectangular) (hc : column.length = p.m) {i : ℕ}
    (hi : i < p.m) :
    (p.appendVariable c column kind).entry i p.n = column.getD i 0 := by
  rw [entry, row_appendVariable hp hc hi, ← row_length hp hi, getD_append_length]

theorem cost_appendVariable {j : ℕ} (hj : j < p.n) :
    (p.appendVariable c column kind).cost j = p.cost j :=
  List.getD_append _ _ _ _ hj

theorem cost_appendVariable_n : (p.appendVariable c column kind).cost p.n = c :=
  getD_append_length p.costs c 0

theorem rowAt_appendVariable (hp : p.Rectangular) (hc : column.length = p.m) {i : ℕ} (hi : i < p.m)
    (y : Point) :
    (p.appendVariable c column kind).rowAt i y = p.rowAt i y + column.getD i 0 * y p.n := by
  rw [rowAt, n_appendVariable, Finset.sum_range_succ, entry_appendVariable_n hp hc hi]
  congr 1
  exact Finset.sum_congr rfl fun j hj => by
    rw [entry_appendVariable hp hc hi (Finset.mem_range.1 hj)]

theorem objectiveAt_appendVariable (y : Point) :
    (p.appendVariable c column kind).objectiveAt y = p.objectiveAt y + c * y p.n := by
  rw [objectiveAt, n_appendVariable, Finset.sum_range_succ, cost_appendVariable_n, objectiveAt,
    ← add_assoc]
  congr 2
  exact Finset.sum_congr rfl fun j hj => by rw [cost_appendVariable (Finset.mem_range.1 hj)]

end Program

end Simplex
