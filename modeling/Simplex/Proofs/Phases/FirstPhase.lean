import Simplex.Proofs.Phases.Auxiliary
import Simplex.Proofs.Standardize
/-! The first phase. Whatever the weights, an optimum that it reports comes with a basis in
    which no artificial variable is positive. Under signed weights it is also right about the
    lack of one: the auxiliary objective has a bound, and where its greatest value is below
    zero nothing is feasible. -/

namespace Simplex.Program

theorem mem_drop_range {n k j : ℕ} : j ∈ (List.range n).drop k ↔ k ≤ j ∧ j < n := by
  rw [List.range_eq_range', List.drop_range', List.mem_range'_1]
  omega

/-! ### What is read off the last tableau -/

namespace Basis
variable {p : Program ℚ} {nonbasic : List ℤ} {B : ℕ → ℕ}

/-- The basic variables add nothing to the constant. -/
theorem firstPhaseObjective_eq (h : p.Basis nonbasic B) :
    p.firstPhaseObjective nonbasic = p.constant := by
  have hzero : ((List.range p.n).filter fun (j : ℕ) => !nonbasic.contains (j : ℤ)).map p.cost =
      ((List.range p.n).filter fun (j : ℕ) => !nonbasic.contains (j : ℤ)).map fun _ => 0 := by
    refine List.map_congr_left fun j hj => ?_
    rw [List.mem_filter, Bool.not_eq_true', ← Bool.not_eq_true, List.contains_iff_mem] at hj
    obtain ⟨i, hi, rfl⟩ := h.exists_of_notMem (List.mem_range.1 hj.1) hj.2
    exact h.cost i hi
  rw [firstPhaseObjective, hzero, Scalar.sum_rat, List.map_const', List.sum_replicate, nsmul_zero,
    add_zero]

/-- Some of the given variables is basic and positive, or none is. -/
theorem positiveBasic?_cases (h : p.Basis nonbasic B) (hs : p.Sharp) {js : List ℕ}
    (hjs : ∀ j ∈ js, j < p.n) :
    (p.positiveBasic? nonbasic js = .ok none ∧ ∀ i < p.m, B i ∈ js → p.value i ≤ p.tolerance) ∨
    ∃ i < p.m, B i ∈ js ∧ p.positiveBasic? nonbasic js = .ok (some (B i)) ∧
    p.tolerance < p.value i := by
  induction js with
  | nil => exact .inl ⟨rfl, fun _ _ hmem => absurd hmem List.not_mem_nil⟩
  | cons j rest ih =>
    have ih := ih fun k hk => hjs k (List.mem_cons_of_mem j hk)
    by_cases hj : (j : ℤ) ∈ nonbasic
    · -- j is not basic: the search skips it, and no row has it
      have hskip : p.positiveBasic? nonbasic (j :: rest) = p.positiveBasic? nonbasic rest := by
        rw [positiveBasic?, if_pos (List.contains_iff_mem.2 hj)]
      rw [hskip]
      rcases ih with ⟨hnone, hle⟩ | ⟨i, hi, hmem, hsome⟩
      · refine .inl ⟨hnone, fun i hi hmem => ?_⟩
        rcases List.mem_cons.1 hmem with hij | hmem
        · exact absurd (hij ▸ hj) (h.notMem hi)
        · exact hle i hi hmem
      · exact .inr ⟨i, hi, List.mem_cons_of_mem j hmem, hsome⟩
    · -- j is the variable of row k, whose value decides
      obtain ⟨k, hk, rfl⟩ := h.exists_of_notMem (hjs j List.mem_cons_self) hj
      have hlook : p.positiveBasic? nonbasic (B k :: rest) =
          if p.tolerance < p.value k then .ok (some (B k)) else p.positiveBasic? nonbasic rest := by
        have hnot : ¬ nonbasic.contains (B k : ℤ) = true :=
          fun hc => hj (List.contains_iff_mem.1 hc)
        rw [positiveBasic?, if_neg hnot, h.basicRow_eq hs hk]
        by_cases hpos : p.tolerance < p.value k
          <;> simp [hpos, bind, pure, Except.bind, Except.pure]
      rw [hlook]
      by_cases hpos : p.tolerance < p.value k
      · exact .inr ⟨k, hk, List.mem_cons_self, if_pos hpos, hpos⟩
      · rw [if_neg hpos]
        rcases ih with ⟨hnone, hle⟩ | ⟨i, hi, hmem, hsome⟩
        · refine .inl ⟨hnone, fun i hi hmem => ?_⟩
          rcases List.mem_cons.1 hmem with hik | hmem
          · rw [h.injective hi hk hik]
            exact not_lt.1 hpos
          · exact hle i hi hmem
        · exact .inr ⟨i, hi, List.mem_cons_of_mem _ hmem, hsome⟩

end Basis

/-! ### Verdicts -/

/-- The point with zeros from variable `n` on. -/
def truncate (n : ℕ) (x : Point) : Point := fun j => if j < n then x j else 0

section Verdicts
variable {P p : Program ℚ} {absolute : Bool} {nonbasic : List ℤ} {B : ℕ → ℕ}

theorem solves_auxiliary_truncate (hP : P.Rectangular) (x : Point) :
    (P.auxiliary absolute).Solves (truncate P.n x) ↔ P.Solves x := by
  rw [solves_auxiliary_iff hP fun i _ => if_neg (by omega), Solves, Solves]
  have hrow : ∀ i, P.rowAt i (truncate P.n x) = P.rowAt i x := rowAt_congr fun j hj => if_pos hj
  exact forall₂_congr fun i _ => by rw [hrow]

theorem nonNegative_truncate {n k : ℕ} {x : Point} (hx : ∀ j < n, 0 ≤ x j) :
    ∀ j < k, 0 ≤ truncate n x j := by
  intro j _
  rw [truncate]
  split_ifs with hj
  · exact hx j hj
  · exact le_rfl

/-- The signed objective is not positive. -/
theorem objectiveAt_auxiliary_nonpos (hP : P.Rectangular) {x : Point}
    (hx : (P.auxiliary false).Solves x) (hn : (P.auxiliary false).NonNegative x) :
    (P.auxiliary false).objectiveAt x ≤ 0 := by
  rw [objectiveAt_auxiliary hP hx, neg_nonpos]
  refine Finset.sum_nonneg fun i hi => hn _ ?_
  rw [n_auxiliary hP]
  exact Nat.add_lt_add_left (Finset.mem_range.1 hi) _

/-- A greatest signed objective below zero excludes every feasible point. -/
theorem Reached.not_nonNegative (h : Reached (P.auxiliary false) p nonbasic) (hP : P.Rectangular)
    (hc : ∀ j < p.n, p.cost j ≤ 0) (hneg : p.constant < 0) {x : Point} (hx : P.Solves x) :
    ¬ P.NonNegative x := by
  intro hn
  have hsolves : (P.auxiliary false).Solves (truncate P.n x) :=
    (solves_auxiliary_truncate hP x).2 hx
  have hle := h.objectiveAt_le hc hsolves (nonNegative_truncate hn)
  have hzero : (P.auxiliary false).objectiveAt (truncate P.n x) = 0 := by
    rw [objectiveAt_auxiliary hP hsolves, neg_eq_zero]
    exact Finset.sum_eq_zero fun i _ => if_neg (by omega)
  linarith

theorem Reached.basicPoint_nonneg (h : Reached (P.auxiliary absolute) p nonbasic)
    (hP : P.Rectangular) (ht : P.tolerance = 0) (j : ℕ) : 0 ≤ p.basicPoint B j :=
  spread_nonneg (h.nonneg ((tolerance_auxiliary hP).trans ht) fun _ hi =>
    value_auxiliary_nonneg hP hi) j

/-- A positive artificial variable keeps the signed objective below zero. -/
theorem Reached.constant_neg (h : Reached (P.auxiliary false) p nonbasic) (hP : P.Rectangular)
    (ht : P.tolerance = 0) (hB : p.Basis nonbasic B) {i : ℕ} (hi : i < p.m) (hart : P.n ≤ B i)
    (hpos : 0 < p.value i) : p.constant < 0 := by
  have hlt := hB.lt i hi
  rw [h.tableau.n, n_auxiliary hP] at hlt
  rw [← h.objectiveAt_basicPoint hB, objectiveAt_auxiliary hP (h.solves_basicPoint hB), neg_lt_zero]
  refine Finset.sum_pos' (fun k _ => h.basicPoint_nonneg hP ht _)
    ⟨B i - P.n, Finset.mem_range.2 (by omega), ?_⟩
  rw [show P.n + (B i - P.n) = B i by omega, basicPoint, hB.spread_basic _ hi]
  exact hpos

/-- A tableau of the first phase in which no artificial variable is positive. -/
structure Found (P : Program ℚ) (absolute : Bool) (p : Program ℚ) (nonbasic : List ℤ) : Prop where
  reached : Reached (P.auxiliary absolute) p nonbasic
  within : IndexSet.Within (P.auxiliary absolute).n nonbasic
  artificial : ∃ B, p.Basis nonbasic B ∧ ∀ i < p.m, P.n ≤ B i → p.value i ≤ p.tolerance

/-- What the outcome of the first phase says about the program and about the
    tableau that is left. -/
def FirstPhaseEnds (P : Program ℚ) (absolute : Bool) (p : Program ℚ) : Outcome → Prop
  | .optimal nonbasic => Found P absolute p nonbasic
  | .infeasible => P.tolerance = 0 → absolute = false → ∀ x, P.Solves x → ¬ P.NonNegative x
  | .unbounded => P.tolerance = 0 → absolute = true

/-- The signed objective has a bound. -/
theorem Reached.firstPhaseEnds_unbounded (h : Reached (P.auxiliary absolute) p nonbasic)
    (hP : P.Rectangular) (hstop : p.Stops nonbasic .unbounded) :
    FirstPhaseEnds P absolute p .unbounded := by
  intro ht
  by_contra hsigned
  rw [Bool.not_eq_true] at hsigned
  subst hsigned
  obtain ⟨x, hx, hn, hpos⟩ := h.exists_objectiveAt_gt ((tolerance_auxiliary hP).trans ht)
    (fun _ hi => value_auxiliary_nonneg hP hi) hstop 0
  exact absurd (objectiveAt_auxiliary_nonpos hP hx hn) (not_le.2 hpos)

end Verdicts

end Simplex.Program

namespace Simplex.Action
open Program
variable {P : Program ℚ} {s : Session ℚ}

/-- A standard form is prepared as it stands. -/
theorem Runs.prepare (hs : s.program = P) (hstandard : P.standard = true)
    (hsimplex : P.simplex = false) (t : ℚ) (absolute : Bool) : Runs t (Action.prepare absolute) s
      fun _ s' => s'.program = P.auxiliary absolute := by
  have hsame : Runs t Action.standardize s fun _ s' => s'.program = P := by
    refine program ?_
    rw [hs, if_pos hstandard]
    exact pure hs
  rw [prepare_eq_auxiliary]
  refine program ?_
  rw [hs, hsimplex, if_neg Bool.false_ne_true]
  refine bind hsame fun _ s' hs' => ⟨.refl, ?_⟩
  rw [← hs']

/-- The search of the auxiliary program from its artificial variables. -/
theorem Runs.searchAuxiliary {absolute : Bool} (hs : s.program = P.auxiliary absolute)
    (hP : P.Rectangular) (hsharp : P.Sharp) (limit : ℕ) :
    Runs P.tolerance (Action.solveFrom limit (IndexSet.below P.n)) s fun o s' =>
      ∃ last, Reached (P.auxiliary absolute) s'.program last ∧
        IndexSet.Within (P.auxiliary absolute).n last ∧ s'.program.Stops last o := by
  have htol : (P.auxiliary absolute).tolerance = P.tolerance := tolerance_auxiliary hP
  have hstart : Reached (P.auxiliary absolute) s.program (IndexSet.below P.n) := by
    rw [hs]
    exact .refl (rectangular_auxiliary hP) (basis_auxiliary hP)
  have hbelow : IndexSet.Within (P.auxiliary absolute).n (IndexSet.below P.n) := by
    refine ⟨(IndexSet.within_below P.n).sorted, ?_⟩
    intro i hi
    have := (IndexSet.within_below P.n).range i hi
    rw [n_auxiliary hP]
    omega
  have hsearch := Runs.search_reached (hsharp.congr htol) limit hstart hbelow
  rw [htol, ← IndexSet.ofList_of_pairwise hbelow.sorted] at hsearch
  refine solveFrom ?_ hsearch
  rw [hs]
  rfl

/-- The first phase makes no fault, and what it reports is so. -/
theorem Runs.firstPhase (hs : s.program = P) (hP : P.Rectangular) (hsharp : P.Sharp)
    (hstandard : P.standard = true) (hsimplex : P.simplex = false) (limit : ℕ) (absolute : Bool) :
    Runs P.tolerance (Action.firstPhase limit absolute) s
      fun o s' => FirstPhaseEnds P absolute s'.program o := by
  refine program (bind (prepare hs hstandard hsimplex _ absolute) fun _ s₁ hs₁ => ?_)
  rw [hs]
  refine bind (searchAuxiliary hs₁ hP hsharp limit) fun o s₂ ⟨last, hlast, hwithin, hstop⟩ => ?_
  obtain ⟨B, hB⟩ := hlast.basis
  have htol : s₂.program.tolerance = P.tolerance :=
    hlast.tableau.tolerance.trans (tolerance_auxiliary hP)
  cases o with
  | infeasible => exact hstop.elim
  | unbounded => exact pure (hlast.firstPhaseEnds_unbounded hP hstop)
  | optimal nonbasic =>
    obtain ⟨rfl, hcost⟩ := hstop
    refine program (note ?_ ?_)
    · trivial
    rw [hB.firstPhaseObjective_eq]
    -- refused by the objective, refused by an artificial variable above zero, or accepted
    split_ifs with hneg
    · refine pure fun ht hsigned => ?_
      subst hsigned
      rw [htol, ht] at hcost
      rw [Scalar.lt_rat, htol, ht, neg_zero, decide_eq_true_eq] at hneg
      exact fun x => hlast.not_nonNegative hP hcost hneg
    · have hjs : ∀ j ∈ (List.range s₂.program.n).drop P.n, j < s₂.program.n := fun j hj =>
        (mem_drop_range.1 hj).2
      rcases hB.positiveBasic?_cases (hsharp.congr htol) hjs with
          ⟨hnone, hle⟩ | ⟨i, hi, hmem, hsome, hpos⟩
      · refine basis hnone (pure ⟨hlast, hwithin, B, hB, fun i hi hart => ?_⟩)
        exact hle i hi (mem_drop_range.2 ⟨hart, hB.lt i hi⟩)
      · refine basis hsome (note ?_ (pure fun ht hsigned => ?_))
        · trivial
        subst hsigned
        rw [htol, ht] at hcost hpos
        exact fun x => hlast.not_nonNegative hP hcost
          (hlast.constant_neg hP ht hB hi (mem_drop_range.1 hmem).1 hpos)

end Simplex.Action
