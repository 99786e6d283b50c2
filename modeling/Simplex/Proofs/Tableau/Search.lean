import Simplex.Proofs.Run
import Simplex.Proofs.Tableau.Move
/-! The search from a basis. Whatever the number of steps, the tableau it has reached is one of the
    program it started with, has a basis, and without tolerance a feasible one; so what its last
    step reads off the tableau, an optimum or the lack of a bound, is a fact about the program. -/

namespace Simplex

namespace IndexSet

/-- A set of indices below `n`, as its increasing list. -/
structure Within (n : ℕ) (is : List ℤ) : Prop where
  sorted : is.Pairwise (· < ·)
  range : ∀ i ∈ is, 0 ≤ i ∧ i < n

theorem Within.exchange {n e l : ℕ} {is : List ℤ} (h : Within n is) (hl : l < n) :
    Within n (exchange e l is) := by
  refine ⟨pairwise_insert (h.sorted.filter _), ?_⟩
  intro i hi
  rcases mem_exchange.1 hi with rfl | ⟨hi, _⟩
  · exact ⟨Int.natCast_nonneg l, by exact_mod_cast hl⟩
  · exact h.range i hi

theorem insert_of_lt {i : ℤ} {is : List ℤ} (h : ∀ j ∈ is, i < j) : insert i is = i :: is := by
  cases is with
  | nil => rfl
  | cons j rest => rw [insert, if_pos (h j (by simp))]

theorem ofList_of_pairwise {is : List ℤ} (h : is.Pairwise (· < ·)) : ofList is = is := by
  induction is with
  | nil => rfl
  | cons i rest ih =>
    rw [List.pairwise_cons] at h
    rw [show ofList (i :: rest) = insert i (ofList rest) from rfl, ih h.2, insert_of_lt h.1]

theorem within_below (n : ℕ) : Within n (below n) := by
  refine ⟨?_, ?_⟩
  · rw [below, List.pairwise_map]
    exact List.pairwise_lt_range.imp fun h => by simpa using h
  · intro i hi
    obtain ⟨k, hk, rfl⟩ := List.mem_map.1 hi
    exact ⟨Int.natCast_nonneg k, by simpa using hk⟩

theorem mem_below {n j : ℕ} : (j : ℤ) ∈ below n ↔ j < n := by
  simp [below]

end IndexSet

namespace Program

/-- What the outcome of a search says about the tableau on which it ends. -/
def Stops (p : Program ℚ) (nonbasic : List ℤ) : Outcome → Prop
  | .optimal found => found = nonbasic ∧ ∀ j < p.n, p.cost j ≤ p.tolerance
  | .unbounded => ∃ e < p.n, p.tolerance < p.cost e ∧ ∀ i < p.m, p.entry i e ≤ p.tolerance
  | .infeasible => False

theorem Basis.stops_of_move {p : Program ℚ} {nonbasic : List ℤ} {B : ℕ → ℕ} (h : p.Basis nonbasic B)
    (hs : p.Sharp) {o : Outcome} (hmove : p.move nonbasic = .ok (.stop o)) :
    p.Stops nonbasic o := by
  rcases h.move_cases hs with ⟨hstop, hcost⟩ | ⟨e, hstop, he⟩ | ⟨r, e, hexchange, _⟩
  · rw [hstop] at hmove
    cases hmove
    exact ⟨rfl, hcost⟩
  · rw [hstop] at hmove
    cases hmove
    exact ⟨e, he⟩
  · rw [hexchange] at hmove
    cases hmove

/-- A tableau that a search may reach from the tableau `q`. -/
structure Reached (q p : Program ℚ) (nonbasic : List ℤ) : Prop where
  tableau : TableauOf q p
  basis : ∃ B, p.Basis nonbasic B
  nonneg : q.tolerance = 0 → (∀ i < q.m, 0 ≤ q.value i) → ∀ i < p.m, 0 ≤ p.value i

namespace Reached
variable {q p : Program ℚ} {nonbasic : List ℤ}

theorem refl {B : ℕ → ℕ} (hp : p.Rectangular) (h : p.Basis nonbasic B) : Reached p p nonbasic :=
  ⟨.refl hp, ⟨B, h⟩, fun _ hb => hb⟩

theorem sharp (h : Reached q p nonbasic) (hq : q.Sharp) : p.Sharp :=
  hq.congr h.tableau.tolerance

/-- An exchange leads to such a tableau again. -/
theorem exchange (h : Reached q p nonbasic) (hq : q.Sharp) {B : ℕ → ℕ} (hB : p.Basis nonbasic B)
    {r e : ℕ} (he : p.Enters nonbasic r e) :
    Reached q (p.pivot r e) (IndexSet.exchange e (B r) nonbasic) := by
  have hp := h.tableau.rectangular
  have ha := (he.entry_pos (h.sharp hq)).ne'
  refine ⟨h.tableau.pivot he.row ha, ⟨_, hB.pivot hp he.row he.column ha he.nonbasic⟩, ?_⟩
  intro ht hb i hi
  rw [m_pivot hp] at hi
  exact he.value_pivot_nonneg hp (h.tableau.tolerance.trans ht) (h.nonneg ht hb) hi

/-- Without positive costs, no non-negative solution of the program has a greater objective than the
    constant. -/
theorem objectiveAt_le (h : Reached q p nonbasic) (hc : ∀ j < p.n, p.cost j ≤ 0) {x : Point}
    (hx : q.Solves x) (hn : q.NonNegative x) : q.objectiveAt x ≤ p.constant := by
  rw [← h.tableau.objectiveAt x hx]
  exact Program.objectiveAt_le hc fun j hj => hn j (h.tableau.n ▸ hj)

theorem solves_basicPoint (h : Reached q p nonbasic) {B : ℕ → ℕ} (hB : p.Basis nonbasic B) :
    q.Solves (p.basicPoint B) :=
  (h.tableau.solves _).1 hB.solves_basicPoint

theorem objectiveAt_basicPoint (h : Reached q p nonbasic) {B : ℕ → ℕ} (hB : p.Basis nonbasic B) :
    q.objectiveAt (p.basicPoint B) = p.constant := by
  rw [← h.tableau.objectiveAt _ (h.solves_basicPoint hB), hB.objectiveAt_basicPoint]

/-- Without positive costs, the point that is read off the tableau is the best
    solution of the program. -/
theorem exists_optimum (h : Reached q p nonbasic) (ht : q.tolerance = 0)
    (hb : ∀ i < q.m, 0 ≤ q.value i) (hc : ∀ j < p.n, p.cost j ≤ 0) :
    ∃ x, p.solution nonbasic = .ok x ∧ q.Solves (pointAt x) ∧ q.NonNegative (pointAt x) ∧
      q.objectiveAt (pointAt x) = p.constant ∧
      ∀ y, q.Solves y → q.NonNegative y → q.objectiveAt y ≤ p.constant := by
  obtain ⟨B, hB⟩ := h.basis
  have hpoint : ∀ j < q.n, p.basicPoint B j =
      pointAt (pointOf p.n ((List.range p.m).map B) p.rhs) j := by
    intro j hj
    exact (hB.getD_pointOf (h.tableau.n.symm ▸ hj)).symm
  refine ⟨_, hB.solution_eq (h.sharp ⟨ht.ge, ht ▸ zero_lt_one⟩), ?_, ?_, ?_, ?_⟩
  · intro i hi
    rw [← rowAt_congr hpoint]
    exact h.solves_basicPoint hB i hi
  · intro j hj
    rw [← hpoint j hj]
    exact spread_nonneg (h.nonneg ht hb) j
  · rw [← objectiveAt_congr hpoint]
    exact h.objectiveAt_basicPoint hB
  · intro y hy hn
    exact h.objectiveAt_le hc hy hn

/-- Where a column bounds nothing, the objective of the program has no bound. -/
theorem exists_objectiveAt_gt (h : Reached q p nonbasic) (ht : q.tolerance = 0)
    (hb : ∀ i < q.m, 0 ≤ q.value i) (hstop : p.Stops nonbasic .unbounded) (K : ℚ) :
    ∃ x, q.Solves x ∧ q.NonNegative x ∧ K < q.objectiveAt x := by
  obtain ⟨B, hB⟩ := h.basis
  obtain ⟨e, he, hc, hcol⟩ := hstop
  rw [h.tableau.tolerance, ht] at hc hcol
  obtain ⟨x, hx, hn, hK⟩ := hB.exists_objectiveAt_gt he (h.nonneg ht hb) hc hcol K
  have hsolves := (h.tableau.solves x).1 hx
  exact ⟨x, hsolves, fun j hj => hn j (h.tableau.n ▸ hj), h.tableau.objectiveAt x hsolves ▸ hK⟩

end Reached

end Program

namespace Action
open Program

/-- The search reaches tableaus of the program only, and stops as they say. -/
theorem Runs.search_reached {q : Program ℚ} (hq : q.Sharp) (limit : ℕ) {nonbasic : List ℤ}
    {s : Session ℚ} (h : Reached q s.program nonbasic) (hw : IndexSet.Within q.n nonbasic) :
    Runs q.tolerance (Action.search limit nonbasic) s fun o s' =>
      ∃ last, Reached q s'.program last ∧ IndexSet.Within q.n last ∧ s'.program.Stops last o := by
  have hrun :=
    Runs.search (t := q.tolerance) (I := fun p is => Reached q p is ∧ IndexSet.Within q.n is)
    (fun p is ⟨hp, his⟩ => ?step) limit nonbasic s ⟨h, hw⟩
  case step =>
    refine ⟨hp.tableau.tolerance, ?_⟩
    obtain ⟨B, hB⟩ := hp.basis
    have hs := hp.sharp hq
    rcases hB.move_cases hs with ⟨hstop, _⟩ | ⟨e, hstop, _⟩ | ⟨r, e, hexchange, he⟩
    · exact .inl ⟨_, hstop⟩
    · exact .inl ⟨_, hstop⟩
    · refine .inr ⟨r, e, B r, hexchange, he.row, he.column, ?_, hp.exchange hq hB he, ?_⟩
      · rw [abs_of_pos (he.entry_pos hs), ← hp.tableau.tolerance]
        exact he.entry
      · exact his.exchange (hp.tableau.n ▸ hB.lt r he.row)
  refine hrun.mono fun o s' ⟨last, ⟨hlast, hwithin⟩, hmove⟩ => ⟨last, hlast, hwithin, ?_⟩
  obtain ⟨B, hB⟩ := hlast.basis
  exact hB.stops_of_move (hlast.sharp hq) hmove

end Action

end Simplex
