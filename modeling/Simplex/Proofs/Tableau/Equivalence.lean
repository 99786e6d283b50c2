import Simplex.Proofs.Run
import Simplex.Proofs.Tableau.Pivot
/-! A pivot is an equivalence of tableaus. It keeps the solutions of the rows and, at a solution,
    the value of the objective; its column becomes the unit vector of its row, and the unit vectors
    of the other rows that have no cost stay, because they have a zero in the pivot row. -/

namespace Simplex

namespace Program
variable {p : Program ℚ} {r s i j : ℕ}

/-- Column `j` is exactly the unit vector of row `i`, and its coefficient in the
    objective is exactly zero. -/
structure UnitColumn (p : Program ℚ) (i j : ℕ) : Prop where
  column : p.column j = Scalar.unit p.m i
  cost : p.cost j = 0

theorem unitColumn_iff (hp : p.Rectangular) :
    p.UnitColumn i j ↔ (∀ k < p.m, p.entry k j = if k = i then 1 else 0) ∧ p.cost j = 0 := by
  have hcolumn : p.column j = Scalar.unit p.m i ↔
      ∀ k < p.m, p.entry k j = if k = i then 1 else 0 := by
    rw [column_eq_map_entry hp, Scalar.unit, List.map_inj_left]
    simp only [List.mem_range]
  rw [← hcolumn]
  exact ⟨fun h => ⟨h.column, h.cost⟩, fun h => ⟨h.1, h.2⟩⟩

/-- The unit vector of a row has a zero in every other row. -/
theorem UnitColumn.entry_of_ne (h : p.UnitColumn i j) (hp : p.Rectangular) (hr : r < p.m)
    (hri : r ≠ i) :
    p.entry r j = 0 := by
  rw [((unitColumn_iff hp).1 h).1 r hr, if_neg hri]

theorem unitColumn_pivot (hp : p.Rectangular) (hr : r < p.m) (hs : s < p.n) (ha : p.entry r s ≠ 0) :
    (p.pivot r s).UnitColumn r s := by
  rw [unitColumn_iff (rectangular_pivot hp hr), m_pivot hp]
  exact ⟨fun k hk => entry_pivot_self hp hr ha hk hs, cost_pivot_self hp hr ha hs⟩

theorem UnitColumn.pivot (h : p.UnitColumn i j) (hp : p.Rectangular) (hr : r < p.m)
    (ha : p.entry r s ≠ 0) (hir : i ≠ r) (hj : j < p.n) : (p.pivot r s).UnitColumn i j := by
  have hzero : p.entry r j = 0 := h.entry_of_ne hp hr (Ne.symm hir)
  obtain ⟨hunit, hcost⟩ := (unitColumn_iff hp).1 h
  rw [unitColumn_iff (rectangular_pivot hp hr), m_pivot hp]
  refine ⟨fun k hk => ?_, ?_⟩
  · rw [entry_pivot_of_zero hp hr ha hk hj hzero, hunit k hk]
  · rw [cost_pivot_of_zero hp hr ha hj hzero, hcost]

end Program

namespace Action
open Program

/-- A pivot inside the tableau, on an element of either sign that is not zero, does not fail. The
    tableau after it has the shape, the solutions and, at a solution, the objective of the one
    before it. The pivot column is the unit vector of the pivot row; the unit columns of other
    rows stay unit columns. Only the numbers of the tableau are changed, and nothing else in the
    session but the journal. -/
theorem pivot_equivalent {s : Session ℚ} (hp : s.program.Rectangular) {r c : ℕ}
    (hr : r < s.program.m) (hc : c < s.program.n) (ha : s.program.entry r c ≠ 0) :
    ∃ s', Action.pivot r c s = .ok () s' ∧
      s'.program.Rectangular ∧ s'.program.m = s.program.m ∧ s'.program.n = s.program.n ∧
      (∀ x, s'.program.Solves x ↔ s.program.Solves x) ∧
      (∀ x, s.program.Solves x → s'.program.objectiveAt x = s.program.objectiveAt x) ∧
      s'.program.UnitColumn r c ∧
      (∀ i < s.program.m, i ≠ r → ∀ j < s.program.n, s.program.UnitColumn i j →
        s'.program.UnitColumn i j) ∧
      s'.program = { s.program with
        constant := s'.program.constant, costs := s'.program.costs
        rhs := s'.program.rhs, rows := s'.program.rows } ∧
      s' = { s with program := s'.program, journal := s'.journal } := by
  have htableau : TableauOf s.program (s.program.pivot r c) := (TableauOf.refl hp).pivot hr ha
  refine ⟨_, pivot_eq hr hc, htableau.rectangular, htableau.m, htableau.n, htableau.solves,
    htableau.objectiveAt, unitColumn_pivot hp hr hc ha, ?_, htableau.frame, rfl⟩
  intro i _ hir j hj hunit
  exact hunit.pivot hp hr ha hir hj

end Action

namespace Program

/-- Two rows, the first with a negative coefficient and the second with its slack variable. -/
def fallingRows : Program ℚ :=
  { objective := .maximize
    costs := [5, 1, 0]
    constant := 1
    restrictions := List.replicate 3 .nonNegative
    relations := [.equal, .equal]
    rhs := [-4, 3]
    rows := [[-2, 1, 0], [3, 0, 1]]
    standard := true
    simplex := true
    tolerance := 0 }

end Program

namespace Action
open Program

/-- A pivot on the negative coefficient, after which the objective counts from `11`. -/
theorem pivot_equivalent_fallingRows :
    ∃ s', Action.pivot 0 0 (Session.start fallingRows) = .ok () s' ∧
    (∀ x, s'.program.Solves x ↔ fallingRows.Solves x) ∧
    (∀ x, fallingRows.Solves x → s'.program.objectiveAt x = fallingRows.objectiveAt x) ∧
    s'.program.UnitColumn 0 0 ∧ s'.program.UnitColumn 1 2 ∧ s'.program.costs = [0, 7 / 2, 0] ∧
    s'.program.constant = 11 := by
  have hslack : fallingRows.UnitColumn 1 2 := ⟨rfl, rfl⟩
  obtain ⟨s', hs', -, -, -, hsolves, hobjective, hpivot, hkept, -, -⟩ :=
    pivot_equivalent (s := Session.start fallingRows) (by decide) (r := 0) (c := 0) (by decide)
      (by decide) (by decide +kernel)
  have hprogram : s'.program = fallingRows.pivot 0 0 := by
    have hrun := pivot_eq (s := Session.start fallingRows) (r := 0) (c := 0) (by decide) (by decide)
    rw [hs'] at hrun
    cases hrun
    rfl
  refine ⟨s', hs', hsolves, hobjective, hpivot,
    hkept 1 (by decide) (by decide) 2 (by decide) hslack, ?_, ?_⟩
  · rw [hprogram]
    decide +kernel
  · rw [hprogram]
    decide +kernel

end Action

end Simplex
