import Mathlib.Tactic.FieldSimp
import Simplex.Proofs.Run
import Simplex.Proofs.Tableau.Unique
/-! Runs of pivots. Whatever the rows and columns that are pivoted on, as long as no element is zero
    the run ends at a tableau of the program with which it began. So two runs that end at the same
    basic variables in the same rows end at the same tableau, however long they are, and a pivot is
    undone by pivoting the variable that it drove out back into its row. -/

namespace Simplex

namespace Program
variable {p : Program ℚ} {B : ℕ → ℕ}

/-- Every row has a variable whose column is the unit vector of the row and which has no cost. -/
structure Assigns (p : Program ℚ) (B : ℕ → ℕ) : Prop where
  lt : ∀ i < p.m, B i < p.n
  unit : ∀ i < p.m, ∀ k < p.m, p.entry k (B i) = if k = i then 1 else 0
  cost : ∀ i < p.m, p.cost (B i) = 0

/-- The variables that are assigned to no row. -/
def unassigned (p : Program ℚ) (B : ℕ → ℕ) : List ℤ :=
  ((List.range p.n).filter fun j => ∀ i < p.m, B i ≠ j).map Int.ofNat

theorem Assigns.basis (h : p.Assigns B) : p.Basis (p.unassigned B) B := by
  refine ⟨h.lt, h.unit, h.cost, ?_⟩
  intro j hj
  simp [unassigned, hj]

/-- A basic variable that has left its row is pivoted back into it, and the
    tableau is what it was. -/
theorem pivot_pivot {r s b : ℕ} (hp : p.Rectangular) (hr : r < p.m) (hb : b < p.n)
    (ha : p.entry r s ≠ 0) (hunit : ∀ k < p.m, p.entry k b = if k = r then 1 else 0)
    (hcost : p.cost b = 0) :
    (p.pivot r s).entry r b ≠ 0 ∧ (p.pivot r s).pivot r b = p := by
  have hn := n_pivot (s := s) hp hr
  have hm := m_pivot (r := r) (s := s) hp
  have hr' : r < (p.pivot r s).m := hm.symm ▸ hr
  have hp' := rectangular_pivot (s := s) hp hr
  -- column b was a unit column, so the way back is a pivot on 1 / a, never on zero
  have hrb : (p.pivot r s).entry r b = 1 / p.entry r s := by
    rw [entry_pivot hp hr ha hr hb, if_pos rfl, hunit r hr, if_pos rfl]
  have ha' : (p.pivot r s).entry r b ≠ 0 := hrb ▸ one_div_ne_zero ha
  have hib : ∀ i < p.m, i ≠ r → (p.pivot r s).entry i b = -(p.entry i s / p.entry r s) := by
    intro i hi hir
    rw [entry_pivot hp hr ha hi hb, if_neg hir, hunit i hi, if_neg hir, hunit r hr, if_pos rfl]
    ring
  have hbcost : (p.pivot r s).cost b = -(p.cost s / p.entry r s) := by
    rw [cost_pivot hp hr ha hb, hcost, hunit r hr, if_pos rfl]
    ring
  have hrs : ∀ j < p.n, (p.pivot r s).entry r j = p.entry r j / p.entry r s := by
    intro j hj
    rw [entry_pivot hp hr ha hr hj, if_pos rfl]
  have hrvalue : (p.pivot r s).value r = p.value r / p.entry r s := by
    rw [value_pivot hp hr, if_pos rfl]
  refine ⟨ha', ((TableauOf.refl hp).pivot hr ha |>.pivot hr' ha').eq_of_numbers
    (.refl hp) ?_ ?_ ?_ ?_⟩
  · -- the constant
    rw [constant_pivot, constant_pivot, hbcost, hrvalue, hrb]
    field_simp
    ring
  · -- the costs
    intro j hj
    rw [n_pivot hp' hr', hn] at hj
    rw [cost_pivot hp' hr' ha' (hn.symm ▸ hj), hrs j hj, hbcost, hrb, cost_pivot hp hr ha hj]
    field_simp
    ring
  · -- the values: row r is divided twice, every other row gets back what it lost
    intro i hi
    rw [m_pivot hp', hm] at hi
    rw [value_pivot hp' (hm.symm ▸ hi)]
    split_ifs with hir
    · rw [hir, hrvalue, hrb]
      field_simp
    · rw [hib i hi hir, hrvalue, hrb, value_pivot hp hi, if_neg hir]
      field_simp
      ring
  · -- the entries
    intro i hi j hj
    rw [m_pivot hp', hm] at hi
    rw [n_pivot hp' hr', hn] at hj
    rw [entry_pivot hp' hr' ha' (hm.symm ▸ hi) (hn.symm ▸ hj)]
    split_ifs with hir
    · rw [hir, hrs j hj, hrb]
      field_simp
    · rw [hib i hi hir, hrs j hj, hrb, entry_pivot hp hr ha hi hj, if_neg hir]
      field_simp
      ring

end Program

namespace Action
open Program

/-- Pivots one after the other, none of which fails and each on an element that is not zero. -/
inductive PivotRun : List (ℤ × ℤ) → Session ℚ → Session ℚ → Prop
  | nil {s : Session ℚ} : PivotRun [] s s
  | cons {row column : ℤ} {rest : List (ℤ × ℤ)} {s s' s'' : Session ℚ} :
      Action.pivot row column s = .ok () s' → s.program.entry row.toNat column.toNat ≠ 0 →
      PivotRun rest s' s'' → PivotRun ((row, column) :: rest) s s''

variable {s s' : Session ℚ}

/-- What a pivot has done that has not failed. -/
theorem pivot_eq_ok {row column : ℤ} (h : Action.pivot row column s = .ok () s') :
    ∃ r < s.program.m, ∃ c < s.program.n, row = r ∧ column = c ∧
    s'.program = s.program.pivot r c := by
  rcases pivot_cases s row column with ⟨r, hr, c, hc, rfl, rfl⟩ | ⟨-, hfail⟩ | ⟨-, hfail⟩
  · rw [pivot_eq hr hc] at h
    cases h
    exact ⟨r, hr, c, hc, rfl, rfl, rfl⟩
  · rw [hfail] at h
    cases h
  · rw [hfail] at h
    cases h

/-- A run of pivots leads to a tableau of the program that it began with. -/
theorem PivotRun.tableauOf {steps : List (ℤ × ℤ)} (h : PivotRun steps s s') {q : Program ℚ}
    (hq : TableauOf q s.program) : TableauOf q s'.program := by
  induction h with
  | nil => exact hq
  | cons hpivot ha _ ih =>
    obtain ⟨r, hr, c, _, rfl, rfl, hs'⟩ := pivot_eq_ok hpivot
    refine ih ?_
    rw [hs']
    exact hq.pivot hr ha

/-- Two runs of pivots from one program that end with the same variable basic in every row end at
    the same program. In particular a variable that a pivot has driven out of its row is pivoted
    back into it, and the program is what it was. -/
theorem pivotRun_unique {s s₁ s₂ : Session ℚ} {first second : List (ℤ × ℤ)} {B : ℕ → ℕ}
    (hp : s.program.Rectangular) (h₁ : PivotRun first s s₁) (h₂ : PivotRun second s s₂)
    (hB₁ : s₁.program.Assigns B) (hB₂ : s₂.program.Assigns B) :
    s₁.program = s₂.program ∧
    ∀ r < s.program.m, ∀ c < s.program.n, ∀ b < s.program.n, s.program.entry r c ≠ 0 →
      (∀ k < s.program.m, s.program.entry k b = if k = r then 1 else 0) → s.program.cost b = 0 →
      ∃ s', PivotRun [(r, c), (r, b)] s s' ∧ s'.program = s.program := by
  have hq : TableauOf s.program s.program := .refl hp
  refine ⟨(h₁.tableauOf hq).eq_of_basis (h₂.tableauOf hq) hB₁.basis hB₂.basis, ?_⟩
  intro r hr c hc b hb ha hunit hcost
  obtain ⟨hback, hrestored⟩ := pivot_pivot hp hr hb ha hunit hcost
  have hr' : r < (s.program.pivot r c).m := (m_pivot hp).symm ▸ hr
  have hb' : b < (s.program.pivot r c).n := (n_pivot hp hr).symm ▸ hb
  exact ⟨_, .cons (pivot_eq hr hc) ha (.cons (pivot_eq hr' hb') hback .nil), hrestored⟩

end Action

namespace Program

/-- Two rows with their slack variables, neither of them a tableau of the
    first two variables yet. -/
def twoRows : Program ℚ :=
  { objective := .maximize
    costs := [3, 2, 0, 0]
    constant := 1
    restrictions := List.replicate 4 .nonNegative
    relations := [.equal, .equal]
    rhs := [4, 6]
    rows := [[1, 1, 1, 0], [1, 3, 0, 1]]
    standard := true
    simplex := true
    tolerance := 0 }

end Program

namespace Action
open Program

/-- The first two variables are brought into the rows directly, and by way of the other rows. -/
theorem pivotRun_unique_twoRows : ∃ s₁ s₂,
    PivotRun [(0, 0), (1, 1)] (Session.start twoRows) s₁ ∧
    PivotRun [(1, 0), (0, 2), (1, 1), (0, 0)] (Session.start twoRows) s₂ ∧
    s₁.program.Assigns id ∧ s₂.program.Assigns id ∧ s₁.program = s₂.program := by
  have hassigns : ((twoRows.pivot 0 0).pivot 1 1).Assigns id ∧
      ((((twoRows.pivot 1 0).pivot 0 2).pivot 1 1).pivot 0 0).Assigns id := by
    refine ⟨⟨?_, ?_, ?_⟩, ⟨?_, ?_, ?_⟩⟩
    all_goals decide +kernel
  have hdirect : ∃ s₁, PivotRun [(0, 0), (1, 1)] (Session.start twoRows) s₁ ∧
      s₁.program = (twoRows.pivot 0 0).pivot 1 1 :=
    ⟨_, .cons rfl (by decide +kernel) (.cons rfl (by decide +kernel) .nil), rfl⟩
  have haround : ∃ s₂, PivotRun [(1, 0), (0, 2), (1, 1), (0, 0)] (Session.start twoRows) s₂ ∧
      s₂.program = (((twoRows.pivot 1 0).pivot 0 2).pivot 1 1).pivot 0 0 :=
    ⟨_, .cons rfl (by decide +kernel) (.cons rfl (by decide +kernel) (.cons rfl (by decide +kernel)
      (.cons rfl (by decide +kernel) .nil))), rfl⟩
  obtain ⟨s₁, h₁, hs₁⟩ := hdirect
  obtain ⟨s₂, h₂, hs₂⟩ := haround
  have hB₁ : s₁.program.Assigns id := hs₁ ▸ hassigns.1
  have hB₂ : s₂.program.Assigns id := hs₂ ▸ hassigns.2
  exact ⟨s₁, s₂, h₁, h₂, hB₁, hB₂, (pivotRun_unique (by decide) h₁ h₂ hB₁ hB₂).1⟩

end Action

end Simplex
