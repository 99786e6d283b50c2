import Simplex.Proofs.Rational
import Simplex.Program.StandardForm
/-! What an exact program means: the value of its rows and of its objective at a point, and
    the points that are feasible. A point has a coordinate for every number, of which a
    program looks at those of its own variables, so a point of a program is also one of the
    program with more variables. -/

namespace Simplex

/-- A value for every variable. -/
abbrev Point := ℕ → ℚ

/-- The point with the given coordinates, zero beyond them. -/
def pointAt (x : List ℚ) : Point := fun j => x.getD j 0

/-- Does the relation hold between the value of a row and its right-hand side? -/
def Relation.Holds : Relation → ℚ → ℚ → Prop
  | .equal, a, b => a = b
  | .lessEqual, a, b => a ≤ b
  | .greaterEqual, a, b => b ≤ a

namespace Objective

/-- Is `a` a better value of the objective than `b`? -/
def Better : Objective → ℚ → ℚ → Prop
  | .maximize, a, b => b < a
  | .minimize, a, b => a < b

/-- A value of the objective as one to be maximised, and back. -/
def asMaximum : Objective → ℚ → ℚ
  | .maximize, a => a
  | .minimize, a => -a

theorem better_iff (o : Objective) (a b : ℚ) : o.Better a b ↔ o.asMaximum b < o.asMaximum a := by
  cases o <;> simp [Better, asMaximum]

@[simp] theorem asMaximum_asMaximum (o : Objective) (a : ℚ) : o.asMaximum (o.asMaximum a) = a := by
  cases o <;> simp [asMaximum]

end Objective

namespace Program

/-- The matrix has a row for every right-hand side and in it a coefficient for every variable. -/
structure Rectangular {K : Type} (p : Program K) : Prop where
  rows : p.rows.length = p.m
  row : ∀ r ∈ p.rows, r.length = p.n

instance {K : Type} (p : Program K) : Decidable p.Rectangular :=
  decidable_of_iff (p.rows.length = p.m ∧ ∀ r ∈ p.rows, r.length = p.n)
    ⟨fun h => ⟨h.1, h.2⟩, fun h => ⟨h.rows, h.row⟩⟩

/-- Maximise, under equalities only, over non-negative variables only. -/
structure IsStandard {K : Type} (p : Program K) : Prop where
  objective : p.objective = .maximize
  relations : ∀ r ∈ p.relations, r = .equal
  restrictions : ∀ r ∈ p.restrictions, r = .nonNegative

/-- The parts of the program fit together: an `m × n` matrix, a relation per row, a restriction per
    variable, and a flag for the standard form that is set only where it holds. -/
structure WellFormed {K : Type} (p : Program K) : Prop extends Rectangular p where
  relations : p.relations.length = p.m
  restrictions : p.restrictions.length = p.n
  truthful : p.standard = true → p.IsStandard

/-- Relations beyond the rows belong to no constraint. -/
theorem constraints_eq_take {K : Type} (p : Program K) :
    p.constraints = (p.relations.take p.m).zip (p.rhs.zip p.rows) := by
  have hlength : (p.rhs.zip p.rows).length ≤ p.m := by
    rw [List.length_zip]
    exact min_le_left _ _
  have hall : (p.relations.zip (p.rhs.zip p.rows)).length ≤ p.m := by
    rw [List.length_zip]
    exact (min_le_right _ _).trans hlength
  rw [constraints, ← List.take_of_length_le hall, List.zip, List.take_zipWith,
    List.take_of_length_le hlength]

/-- The constraints of a program whose parts fit together, taken apart again. -/
theorem map_constraints {K : Type} {p : Program K} (hrows : p.rows.length = p.m)
    (hrelations : p.m ≤ p.relations.length) :
    p.constraints.map (fun c => c.1) = p.relations.take p.m ∧
      p.constraints.map (fun c => c.2.1) = p.rhs ∧ p.constraints.map (fun c => c.2.2) = p.rows := by
  have hzip : (p.rhs.zip p.rows).length = p.m := by
    rw [List.length_zip, hrows, m, Nat.min_self]
  have htake : (p.relations.take p.m).length = p.m := List.length_take_of_le hrelations
  have hsnd : p.constraints.map Prod.snd = p.rhs.zip p.rows := by
    rw [constraints_eq_take, List.map_snd_zip (hzip.trans htake.symm).le]
  refine ⟨?_, ?_, ?_⟩
  · rw [constraints_eq_take]
    exact List.map_fst_zip (htake.trans hzip.symm).le
  · rw [← List.map_fst_zip hrows.ge, ← hsnd, List.map_map]
    rfl
  · rw [← List.map_snd_zip hrows.le, ← hsnd, List.map_map]
    rfl

variable (p : Program ℚ)

/-- The value of row `i` at a point. -/
def rowAt (i : ℕ) (x : Point) : ℚ := ∑ j ∈ Finset.range p.n, p.entry i j * x j

/-- The value of the objective at a point. -/
def objectiveAt (x : Point) : ℚ := p.constant + ∑ j ∈ Finset.range p.n, p.cost j * x j

/-- Every row has its right-hand side for a value. -/
def Solves (x : Point) : Prop := ∀ i < p.m, p.rowAt i x = p.value i

/-- No coordinate of the program is negative. -/
def NonNegative (x : Point) : Prop := ∀ j < p.n, 0 ≤ x j

/-- The point keeps to every constraint and to every restriction. -/
structure Feasible (x : Point) : Prop where
  relations : ∀ i < p.m, ∀ r, p.relations[i]? = some r → r.Holds (p.rowAt i x) (p.value i)
  restrictions : ∀ j < p.n, p.restrictions[j]? = some .nonNegative → 0 ≤ x j

variable {p}

theorem row_length {K : Type} {p : Program K} (hp : p.Rectangular) {i : ℕ} (hi : i < p.m) :
    (p.row i).length = p.n :=
  hp.row _ (getD_mem (hp.rows ▸ hi) [])

theorem rowAt_congr {x y : Point} (h : ∀ j < p.n, x j = y j) (i : ℕ) : p.rowAt i x = p.rowAt i y :=
  Finset.sum_congr rfl fun j hj => by rw [h j (Finset.mem_range.1 hj)]

theorem objectiveAt_congr {x y : Point} (h : ∀ j < p.n, x j = y j) :
    p.objectiveAt x = p.objectiveAt y := by
  unfold objectiveAt
  congr 1
  exact Finset.sum_congr rfl fun j hj => by rw [h j (Finset.mem_range.1 hj)]

/-- Negating a row negates its value. -/
theorem rowAt_of_row_neg (q : Program ℚ) (hp : p.Rectangular) (hn : q.n = p.n) {i : ℕ}
    (hi : i < p.m) (hrow : q.row i = (p.row i).map (- ·)) (x : Point) :
    q.rowAt i x = -p.rowAt i x := by
  rw [rowAt, rowAt, hn, ← Finset.sum_neg_distrib]
  refine Finset.sum_congr rfl fun j hj => ?_
  rw [entry, hrow, getD_map _ ((row_length hp hi).symm ▸ Finset.mem_range.1 hj) 0, neg_mul]
  rfl

theorem Feasible.congr {x y : Point} (h : ∀ j < p.n, x j = y j) (hx : p.Feasible x) :
    p.Feasible y := by
  refine ⟨?_, ?_⟩
  · intro i hi r hr
    rw [← rowAt_congr h]
    exact hx.relations i hi r hr
  · intro j hj hr
    rw [← h j hj]
    exact hx.restrictions j hj hr

/-- In standard form the feasible points are the non-negative solutions. -/
theorem IsStandard.feasible_iff (hs : p.IsStandard) (hp : p.WellFormed) (x : Point) :
    p.Feasible x ↔ p.Solves x ∧ p.NonNegative x := by
  have equal : ∀ i < p.m, p.relations[i]? = some .equal := by
    intro i hi
    have hi : i < p.relations.length := hp.relations ▸ hi
    rw [List.getElem?_eq_getElem hi, hs.relations _ (List.getElem_mem hi)]
  have free : ∀ j < p.n, p.restrictions[j]? = some .nonNegative := by
    intro j hj
    have hj : j < p.restrictions.length := hp.restrictions ▸ hj
    rw [List.getElem?_eq_getElem hj, hs.restrictions _ (List.getElem_mem hj)]
  constructor
  · intro hx
    exact ⟨fun i hi => hx.relations i hi _ (equal i hi),
      fun j hj => hx.restrictions j hj (free j hj)⟩
  · rintro ⟨solves, nonneg⟩
    refine ⟨?_, fun j hj _ => nonneg j hj⟩
    intro i hi r hr
    rw [equal i hi] at hr
    cases hr
    exact solves i hi

end Program

end Simplex
