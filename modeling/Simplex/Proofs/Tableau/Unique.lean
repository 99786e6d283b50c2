import Simplex.Proofs.Tableau.BasicPoint
/-! What a basis settles. Among the tableaus of one program the basis fixes the basic point, and if
    it is known which variable is basic in which row it fixes every number. The costs of two
    tableaus are tied to each other by the columns of one of them. -/

namespace Simplex

namespace Program
variable {p p' q : Program ℚ} {nonbasic nonbasic' : List ℤ} {B : ℕ → ℕ}

/-- The basic point is the only solution in which the nonbasic variables are zero. -/
theorem Basis.eq_basicPoint (h : p.Basis nonbasic B) {x : Point} (hx : p.Solves x)
    (hzero : ∀ j < p.n, (j : ℤ) ∈ nonbasic → x j = 0) {j : ℕ} (hj : j < p.n) :
    x j = p.basicPoint B j := by
  by_cases hmem : (j : ℤ) ∈ nonbasic
  · rw [hzero j hj hmem, basicPoint, h.spread_nonbasic _ hj hmem]
  · obtain ⟨i, hi, rfl⟩ := h.exists_of_notMem hj hmem
    rw [basicPoint, h.spread_basic _ hi, ← hx i hi, rowAt, Finset.sum_eq_single (B i)]
    · rw [h.unit i hi i hi, if_pos rfl, one_mul]
    · intro v hv hne
      have hv := Finset.mem_range.1 hv
      by_cases hvmem : (v : ℤ) ∈ nonbasic
      · rw [hzero v hv hvmem, mul_zero]
      · obtain ⟨k, hk, rfl⟩ := h.exists_of_notMem hv hvmem
        have hik : i ≠ k := fun hik => hne (by rw [hik])
        rw [h.unit k hk i hi, if_neg hik, zero_mul]
    · intro hnot
      exact absurd (Finset.mem_range.2 hj) hnot

/-- Tableaus of one program with the same numbers are the same. -/
theorem TableauOf.eq_of_numbers (hp : TableauOf q p) (hp' : TableauOf q p')
    (hconstant : p.constant = p'.constant) (hcost : ∀ j < p.n, p.cost j = p'.cost j)
    (hvalue : ∀ i < p.m, p.value i = p'.value i)
    (hentry : ∀ i < p.m, ∀ j < p.n, p.entry i j = p'.entry i j) : p = p' := by
  have hm : p'.m = p.m := hp'.m.trans hp.m.symm
  have hn : p'.n = p.n := hp'.n.trans hp.n.symm
  have hcosts : p.costs = p'.costs := eq_of_getD 0 hn.symm hcost
  have hrhs : p.rhs = p'.rhs := eq_of_getD 0 hm.symm hvalue
  have hrows : p.rows = p'.rows := by
    have hlen : p.rows.length = p'.rows.length := by
      rw [hp.rectangular.rows, hp'.rectangular.rows, hm]
    refine eq_of_getD [] hlen fun i hi => ?_
    have hi : i < p.m := hp.rectangular.rows ▸ hi
    have hrow : (p.row i).length = (p'.row i).length := by
      rw [row_length hp.rectangular hi, row_length hp'.rectangular (hm.symm ▸ hi), hn]
    exact eq_of_getD 0 hrow fun j hj => hentry i hi j (row_length hp.rectangular hi ▸ hj)
  rw [hp.frame, hp'.frame, hconstant, hcosts, hrhs, hrows]

section Points
variable {B' : ℕ → ℕ} (hp : TableauOf q p) (hp' : TableauOf q p') (h : p.Basis nonbasic B)
  (h' : p'.Basis nonbasic' B')
  (hzero : ∀ j < p'.n, (j : ℤ) ∈ nonbasic' → p.basicPoint B j = 0)
include hp hp' h h' hzero

/-- Two bases have one basic point if the nonbasic variables of one are zero in
    the point of the other. -/
theorem TableauOf.basicPoint_eq {j : ℕ} (hj : j < p'.n) : p.basicPoint B j = p'.basicPoint B' j :=
  h'.eq_basicPoint ((hp'.solves _).2 ((hp.solves _).1 h.solves_basicPoint)) hzero hj

theorem TableauOf.constant_eq : p.constant = p'.constant := by
  have hsolves := (hp.solves _).1 h.solves_basicPoint
  have hsolves' := (hp'.solves _).1 h'.solves_basicPoint
  rw [← h.objectiveAt_basicPoint, ← h'.objectiveAt_basicPoint, hp.objectiveAt _ hsolves,
    hp'.objectiveAt _ hsolves']
  exact objectiveAt_congr fun j hj => hp.basicPoint_eq hp' h h' hzero (hp'.n.symm ▸ hj)

end Points

/-- The objective of another tableau along a column. -/
theorem TableauOf.objectiveAt_rayPoint (hp : TableauOf q p) (hp' : TableauOf q p')
    (h : p.Basis nonbasic B) {e : ℕ} (he : e < p.n) (θ : ℚ) :
    p'.constant +
      (∑ i ∈ Finset.range p.m, p'.cost (B i) * (p.value i - p.entry i e * θ) + p'.cost e * θ) =
      p.constant + p.cost e * θ := by
  have hn : p'.n = p.n := hp'.n.trans hp.n.symm
  have hsolves : q.Solves (p.rayPoint B e θ) := (hp.solves _).1 (h.solves_rayPoint he θ)
  have hray := hp'.objectiveAt _ hsolves
  rw [← hp.objectiveAt _ hsolves, h.objectiveAt_rayPoint he, Program.objectiveAt, hn] at hray
  simp only [rayPoint, mul_add, Finset.sum_add_distrib, sum_mul_single he,
    sum_mul_spread h.lt] at hray
  exact hray

/-- The costs of two tableaus. -/
theorem TableauOf.cost_eq (hp : TableauOf q p) (hp' : TableauOf q p')
    (h : p.Basis nonbasic B) {e : ℕ} (he : e < p.n) :
    p.cost e = p'.cost e - ∑ i ∈ Finset.range p.m, p'.cost (B i) * p.entry i e := by
  -- two points on the ray, one a step apart from the other
  have hzero := hp.objectiveAt_rayPoint hp' h he 0
  have hone := hp.objectiveAt_rayPoint hp' h he 1
  simp only [mul_zero, mul_one, sub_zero, add_zero, mul_sub, Finset.sum_sub_distrib] at hzero hone
  linarith

section Rows
variable (hp : TableauOf q p) (hp' : TableauOf q p') (h : p.Basis nonbasic B)
    (h' : p'.Basis nonbasic' B)
include hp hp' h h'

/-- The rows of another tableau with the same basic variables along a column. -/
theorem TableauOf.rowAt_rayPoint {e k : ℕ} (he : e < p.n) (hk : k < p.m) (θ : ℚ) :
    p.value k - p.entry k e * θ + p'.entry k e * θ = p'.value k := by
  have hm : p'.m = p.m := hp'.m.trans hp.m.symm
  have hn : p'.n = p.n := hp'.n.trans hp.n.symm
  have hray : p'.rowAt k (p.rayPoint B e θ) = p'.value k :=
    (hp'.solves _).2 ((hp.solves _).1 (h.solves_rayPoint he θ)) k (hm.symm ▸ hk)
  have hspread := h'.rowAt_spread (fun i => p.value i - p.entry i e * θ) (hm.symm ▸ hk)
  rw [rowAt, hn, hm] at hspread
  rw [← hray, rowAt, hn]
  simp only [rayPoint, mul_add, Finset.sum_add_distrib, sum_mul_single he]
  rw [hspread]

theorem TableauOf.value_eq_of_basis {k : ℕ} (hk : k < p.m) : p.value k = p'.value k := by
  have hzero := hp.rowAt_rayPoint hp' h h' (h.lt k hk) hk 0
  rwa [mul_zero, mul_zero, sub_zero, add_zero] at hzero

theorem TableauOf.entry_eq_of_basis {e k : ℕ} (he : e < p.n) (hk : k < p.m) :
    p.entry k e = p'.entry k e := by
  have hone := hp.rowAt_rayPoint hp' h h' he hk 1
  have hvalue := hp.value_eq_of_basis hp' h h' hk
  linarith

theorem TableauOf.cost_eq_of_basis {e : ℕ} (he : e < p.n) : p.cost e = p'.cost e := by
  have hm : p'.m = p.m := hp'.m.trans hp.m.symm
  rw [hp.cost_eq hp' h he, sub_eq_self]
  exact Finset.sum_eq_zero fun i hi => by
    rw [h'.cost i (hm.symm ▸ Finset.mem_range.1 hi), zero_mul]

theorem TableauOf.constant_eq_of_basis : p.constant = p'.constant := by
  have hm : p'.m = p.m := hp'.m.trans hp.m.symm
  have hsolves : q.Solves (p.basicPoint B) := (hp.solves _).1 h.solves_basicPoint
  have hsame : p'.basicPoint B = p.basicPoint B := by
    funext j
    rw [basicPoint, basicPoint, spread, spread, hm]
    exact Finset.sum_congr rfl fun i hi => by
      rw [hp.value_eq_of_basis hp' h h' (Finset.mem_range.1 hi)]
  rw [← h.objectiveAt_basicPoint, ← h'.objectiveAt_basicPoint, hsame, hp.objectiveAt _ hsolves,
    hp'.objectiveAt _ hsolves]

/-- A tableau is settled by its basic variables and their rows. -/
theorem TableauOf.eq_of_basis : p = p' :=
  hp.eq_of_numbers hp' (hp.constant_eq_of_basis hp' h h')
    (fun _ he => hp.cost_eq_of_basis hp' h h' he)
    (fun _ hk => hp.value_eq_of_basis hp' h h' hk) fun _ hk _ he =>
      hp.entry_eq_of_basis hp' h h' he hk

end Rows

end Program

end Simplex
