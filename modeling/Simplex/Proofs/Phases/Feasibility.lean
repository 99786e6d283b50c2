import Simplex.Proofs.Phases.FirstPhase
import Simplex.Proofs.SearchContract
/-! The first phase under signed weights decides whether a standard form has a feasible point.
    At each of its positions the objective of a solution is the negated sum of the artificial
    variables. So it has a bound, and where the greatest value is zero, every artificial
    variable is zero at the point of the tableau; the test of the objective alone tells the
    one case from the other. -/

namespace Simplex

namespace Program

/-! ### The signed objective -/

section Signed
variable {P p : Program ℚ} {nonbasic : List ℤ}

/-- Where the greatest signed objective is not below zero, the point of the tableau has no
    artificial part and is feasible. -/
theorem Reached.exists_feasible (h : Reached (P.auxiliary false) p nonbasic) (hP : P.Rectangular)
    (ht : P.tolerance = 0) (hc : ∀ j < p.n, p.cost j ≤ 0) (hconstant : 0 ≤ p.constant) :
    ∃ x, p.solution nonbasic = .ok x ∧ (∀ i < P.m, x.getD (P.n + i) 0 = 0) ∧ P.Solves (pointAt x) ∧
      P.NonNegative (pointAt x) := by
  obtain ⟨x, hx, hsolves, hn, hvalue, -⟩ := h.exists_optimum ((tolerance_auxiliary hP).trans ht)
    (fun _ hi => value_auxiliary_nonneg hP hi) hc
  have hpart : ∀ i ∈ Finset.range P.m, 0 ≤ pointAt x (P.n + i) := by
    intro i hi
    refine hn _ ?_
    rw [n_auxiliary hP]
    exact Nat.add_lt_add_left (Finset.mem_range.1 hi) _
  have hsum : ∑ i ∈ Finset.range P.m, pointAt x (P.n + i) = 0 := by
    rw [objectiveAt_auxiliary hP hsolves] at hvalue
    exact le_antisymm (by linarith) (Finset.sum_nonneg hpart)
  have hzero : ∀ i < P.m, pointAt x (P.n + i) = 0 := fun i hi =>
    (Finset.sum_eq_zero_iff_of_nonneg hpart).1 hsum i (Finset.mem_range.2 hi)
  refine ⟨x, hx, hzero, (solves_auxiliary_iff hP hzero).1 hsolves, fun j hj => hn j ?_⟩
  rw [n_auxiliary hP]
  exact hj.trans_le (Nat.le_add_right _ _)

/-- What the outcome of the first phase under signed weights says. Its last event is the greatest
    objective, which decides. -/
structure Decides (P : Program ℚ) (s : Session ℚ) (o : Outcome) : Prop where
  bounded : o ≠ .unbounded
  test : ∃ objective earlier, s.journal = .firstPhase objective :: earlier ∧
    (o = .infeasible ↔ objective < 0)
  infeasible : o = .infeasible → ∀ x, P.Solves x → ¬ P.NonNegative x
  optimal : ∀ nonbasic, o = .optimal nonbasic → ∃ x, s.program.solution nonbasic = .ok x ∧
    (∀ i < P.m, x.getD (P.n + i) 0 = 0) ∧ P.Solves (pointAt x) ∧ P.NonNegative (pointAt x)

section Decision
variable {s : Session ℚ} {o : Outcome}

theorem Decides.exists_optimal (h : Decides P s o) (ho : o ≠ .infeasible) :
    ∃ nonbasic x, o = .optimal nonbasic ∧ s.program.solution nonbasic = .ok x ∧
      (∀ i < P.m, x.getD (P.n + i) 0 = 0) ∧ P.Solves (pointAt x) ∧ P.NonNegative (pointAt x) := by
  cases o with
  | infeasible => exact absurd rfl ho
  | unbounded => exact absurd rfl h.bounded
  | optimal nonbasic =>
    obtain ⟨x, hx⟩ := h.optimal nonbasic rfl
    exact ⟨nonbasic, x, rfl, hx⟩

/-- Both outcomes are right. -/
theorem Decides.infeasible_iff (h : Decides P s o) :
    o = .infeasible ↔ ∀ x, P.Solves x → ¬ P.NonNegative x := by
  refine ⟨h.infeasible, fun hnone => ?_⟩
  by_contra ho
  obtain ⟨-, x, -, -, -, hsolves, hn⟩ := h.exists_optimal ho
  exact hnone _ hsolves hn

end Decision

/-- The start of the search. -/
theorem canonical_auxiliary (hP : P.Rectangular) (ht : P.tolerance = 0) (absolute : Bool) :
    Position.Canonical ⟨P.auxiliary absolute, IndexSet.below P.n⟩ :=
  ⟨rectangular_auxiliary hP, (tolerance_auxiliary hP).trans ht, ⟨_, basis_auxiliary hP⟩,
    fun _ hi => value_auxiliary_nonneg hP hi⟩

/-- At every position a solution has the negated sum of its artificial part for the objective. -/
theorem objectiveAt_after_auxiliary (hP : P.Rectangular) (ht : P.tolerance = 0) (k : ℕ) {x : Point}
    (hx : (Position.after ⟨P.auxiliary false, IndexSet.below P.n⟩ k).tableau.Solves x) :
    (Position.after ⟨P.auxiliary false, IndexSet.below P.n⟩ k).tableau.objectiveAt x =
      -∑ i ∈ Finset.range P.m, x (P.n + i) := by
  have htableau := (canonical_auxiliary hP ht false).tableauOf_after k
  have hsolves := (htableau.solves x).1 hx
  rw [htableau.objectiveAt x hsolves, objectiveAt_auxiliary hP hsolves]

end Signed

end Program

namespace Action
open Program

section Prepare
variable {K : Type} [Scalar K] {s : Session K}

/-- A standard form is prepared as it stands, whether it is marked as one or not. -/
theorem prepare_eq (hp : s.program.Shaped) (hstandard : s.program.IsStandard)
    (hsimplex : s.program.simplex = false) (absolute : Bool) :
    Action.prepare absolute s =
      .ok () { s with program := s.program.marked.auxiliary absolute } := by
  have hprepare : Action.prepare absolute s = (Action.standardize >>= fun _ =>
      Action.change (Program.auxiliary absolute)) s := by
    simp only [prepare_eq_auxiliary, bind, EStateM.bind, program, hsimplex, Bool.false_eq_true,
      if_false]
  rw [hprepare]
  cases hflag : s.program.standard with
  | true =>
    simp only [Action.standardize, bind, EStateM.bind, program, hflag, if_true,
      marked_of_flags hflag hsimplex]
    rfl
  | false =>
    simp only [bind, EStateM.bind, standardize_eq_of_shaped hp hflag, hstandard.standardForm]
    rfl

/-- The first phase does with a standard form what it does with the one that is marked. -/
theorem firstPhase_marked (hp : s.program.Shaped) (hstandard : s.program.IsStandard)
    (hsimplex : s.program.simplex = false) (limit : ℕ) (absolute : Bool) :
    Action.firstPhase limit absolute s =
      Action.firstPhase limit absolute { s with program := s.program.marked } := by
  have hmarked :=
    prepare_eq (s := { s with program := s.program.marked }) hp.marked hstandard.marked rfl absolute
  simp only [Action.firstPhase, bind, EStateM.bind, program, prepare_eq hp hstandard hsimplex,
    hmarked]
  rfl

end Prepare

/-- Under signed weights the first phase is right about both outcomes, and the test of its objective
    alone decides between them. -/
theorem Runs.decides {P : Program ℚ} {s : Session ℚ} (hs : s.program = P) (hP : P.Rectangular)
    (ht : P.tolerance = 0) (hstandard : P.standard = true) (hsimplex : P.simplex = false)
    (limit : ℕ) :
    Runs P.tolerance (Action.firstPhase limit false) s fun o s' => Decides P s' o := by
  have hsharp : P.Sharp := ⟨ht.ge, ht ▸ zero_lt_one⟩
  refine program (bind (prepare hs hstandard hsimplex _ false) fun _ s₁ hs₁ => ?_)
  rw [hs]
  refine bind (searchAuxiliary hs₁ hP hsharp limit) fun o s₂ ⟨last, hlast, _, hstop⟩ => ?_
  obtain ⟨B, hB⟩ := hlast.basis
  have htol : s₂.program.tolerance = 0 :=
    (hlast.tableau.tolerance.trans (tolerance_auxiliary hP)).trans ht
  cases o with
  | infeasible => exact hstop.elim
  | unbounded => exact absurd (hlast.firstPhaseEnds_unbounded hP hstop ht) Bool.false_ne_true
  | optimal nonbasic =>
    obtain ⟨rfl, hcost⟩ := hstop
    rw [htol] at hcost
    refine program (note ?_ ?_)
    · trivial
    rw [hB.firstPhaseObjective_eq]
    split_ifs with hneg
    · rw [Scalar.lt_rat, htol, neg_zero, decide_eq_true_eq] at hneg
      refine pure ⟨nofun, ⟨_, _, rfl, iff_of_true rfl hneg⟩, fun _ x => ?_, nofun⟩
      exact hlast.not_nonNegative hP hcost hneg
    · rw [Scalar.lt_rat, htol, neg_zero, decide_eq_true_eq, not_lt] at hneg
      have hjs : ∀ j ∈ (List.range s₂.program.n).drop P.n, j < s₂.program.n := fun j hj =>
        (mem_drop_range.1 hj).2
      rcases hB.positiveBasic?_cases (hlast.sharp (hsharp.congr (tolerance_auxiliary hP))) hjs with
        ⟨hnone, _⟩ | ⟨i, hi, hmem, _, hpos⟩
      · refine basis hnone
          (pure ⟨nofun, ⟨_, _, rfl, iff_of_false nofun (not_lt.2 hneg)⟩, nofun, ?_⟩)
        rintro _ ⟨rfl⟩
        exact hlast.exists_feasible hP ht hcost hneg
      · -- an artificial variable above zero would have made the objective negative
        rw [htol] at hpos
        exact absurd (hlast.constant_neg hP ht hB hi (mem_drop_range.1 hmem).1 hpos) (not_lt.2 hneg)

/-- The search of a prepared program begins where its artificial variables are basic. -/
theorem position_auxiliary {P : Program ℚ} (s : Session ℚ) (absolute : Bool) :
    Session.position { s with program := P.auxiliary absolute } (IndexSet.below P.n) =
      ⟨P.auxiliary absolute, IndexSet.below P.n⟩ := by
  rw [Session.position, IndexSet.ofList_of_pairwise (IndexSet.within_below _).sorted]

/-- After `k` pivots the search goes on from the position that they lead to. -/
theorem solveFrom_auxiliary {P : Program ℚ} (hP : P.Rectangular) (ht : P.tolerance = 0)
    (s : Session ℚ) (absolute : Bool) {k : ℕ}
    (hk : Position.Lasts ⟨P.auxiliary absolute, IndexSet.below P.n⟩ k) :
    ∃ s₂, s₂.program = (Position.after ⟨P.auxiliary absolute, IndexSet.below P.n⟩ k).tableau ∧
    ∀ limit, Action.solveFrom (k + limit) (IndexSet.below P.n)
      { s with program := P.auxiliary absolute } =
        Action.search limit (Position.after ⟨P.auxiliary absolute, IndexSet.below P.n⟩ k).nonbasic
          s₂ := by
  obtain ⟨s₂, hs₂, hsearch⟩ := search_add (s := { s with program := P.auxiliary absolute })
    (canonical_auxiliary hP ht absolute) rfl k hk
  refine ⟨s₂, hs₂, fun limit => ?_⟩
  rw [solveFrom_eq rfl, IndexSet.ofList_of_pairwise (IndexSet.within_below _).sorted]
  exact hsearch limit

/-- Under signed weights the search finds no lack of a bound. -/
theorem solveFrom_auxiliary_ne_unbounded {P : Program ℚ} (hP : P.Rectangular) (ht : P.tolerance = 0)
    (s : Session ℚ) (limit : ℕ) (s' : Session ℚ) :
    Action.solveFrom limit (IndexSet.below P.n) { s with program := P.auxiliary false } ≠
      .ok .unbounded s' := by
  intro h
  have hsearch := Runs.searchAuxiliary (s := { s with program := P.auxiliary false }) rfl hP
    ⟨ht.ge, ht ▸ zero_lt_one⟩ limit
  obtain ⟨last, hlast, -, hstop⟩ := hsearch.of_ok h
  exact absurd (hlast.firstPhaseEnds_unbounded hP hstop ht) Bool.false_ne_true

/-- The first phase under signed weights decides feasibility. Every number of pivots leads to the
    search of a tableau at whose solutions the objective is the negated sum of the artificial
    variables, and the search finds no lack of a bound. A first phase that ends calls the program
    infeasible just if it has no feasible point, and otherwise gives a set whose point has no
    artificial part and is feasible. It ends otherwise than out of steps only in these ways, and
    what the test of the objective lets pass is not rejected any more. -/
theorem firstPhase_signed {s : Session ℚ} (hp : s.program.Shaped) (hstandard : s.program.IsStandard)
    (hsimplex : s.program.simplex = false) (ht : s.program.tolerance = 0) :
    (∃ s₁, Action.prepare false s = .ok () s₁ ∧
      (∀ k, (s₁.position (IndexSet.below s.program.n)).Lasts k →
        (∃ s₂, s₂.program = ((s₁.position (IndexSet.below s.program.n)).after k).tableau ∧ ∀ limit,
          Action.solveFrom (k + limit) (IndexSet.below s.program.n) s₁ =
            Action.search limit ((s₁.position (IndexSet.below s.program.n)).after k).nonbasic s₂) ∧
        ∀ x, ((s₁.position (IndexSet.below s.program.n)).after k).tableau.Solves x →
          ((s₁.position (IndexSet.below s.program.n)).after k).tableau.objectiveAt x =
            -∑ i ∈ Finset.range s.program.m, x (s.program.n + i)) ∧
      ∀ limit s', Action.solveFrom limit (IndexSet.below s.program.n) s₁ ≠ .ok .unbounded s') ∧
    (∀ limit e s', Action.firstPhase limit false s = .error e s' → e = .outOfSteps) ∧
    ∀ limit o s', Action.firstPhase limit false s = .ok o s' →
      (o = .infeasible ↔ ∀ x, s.program.Solves x → ¬ s.program.NonNegative x) ∧
      (o ≠ .infeasible → ∃ nonbasic x, o = .optimal nonbasic ∧
        s'.program.solution nonbasic = .ok x ∧
        (∀ i < s.program.m, x.getD (s.program.n + i) 0 = 0) ∧
        s.program.Solves (pointAt x) ∧ s.program.NonNegative (pointAt x)) ∧
      ∃ objective earlier, s'.journal = .firstPhase objective :: earlier ∧
      (o = .infeasible ↔ objective < 0) := by
  have hP := hp.marked.toRectangular
  have hruns :=
    fun limit => Runs.decides (P := s.program.marked) (s := { s with program := s.program.marked })
    rfl hP ht rfl rfl limit
  refine ⟨⟨_, prepare_eq hp hstandard hsimplex false, ?_, ?_⟩, ?_, ?_⟩
  · have hbelow : IndexSet.below s.program.n = IndexSet.below s.program.marked.n := rfl
    rw [hbelow, position_auxiliary]
    intro k hlasts
    exact ⟨solveFrom_auxiliary hP ht s false hlasts,
      fun x hx => objectiveAt_after_auxiliary hP ht k hx⟩
  · exact solveFrom_auxiliary_ne_unbounded hP ht s
  · intro limit e s' h
    rw [firstPhase_marked hp hstandard hsimplex] at h
    exact (hruns limit).of_error h
  · intro limit o s' h
    rw [firstPhase_marked hp hstandard hsimplex] at h
    have hdecides := (hruns limit).of_ok h
    exact ⟨hdecides.infeasible_iff, hdecides.exists_optimal, hdecides.test⟩

end Action

namespace Program

/-- Three equations, of which the last is twice the first. With `-1` on the right of the second
    there is a feasible point, with `-3` there is none. -/
def crossing (value : ℚ) : Program ℚ :=
  { objective := .maximize
    costs := [1, 0, 2]
    constant := 0
    restrictions := List.replicate 3 .nonNegative
    relations := List.replicate 3 .equal
    rhs := [2, value, 4]
    rows := [[1, 1, 0], [-1, 1, 1], [2, 2, 0]]
    standard := false
    simplex := false
    tolerance := 0 }

theorem isStandard_crossing (value : ℚ) : (crossing value).IsStandard :=
  ⟨rfl, fun _ => List.eq_of_mem_replicate, fun _ => List.eq_of_mem_replicate⟩

theorem shaped_crossing (value : ℚ) : (crossing value).Shaped :=
  ⟨of_decide_eq_true rfl, rfl, le_rfl⟩

end Program

namespace Action
open Program

/-- Two pivots find a feasible point where there is one, though the third artificial
    variable stays in the basis. -/
theorem firstPhase_signed_crossing :
    (∃ s', Action.firstPhase 20 false (Session.start (crossing (-3))) = .ok .infeasible s' ∧
      ∀ x, (crossing (-3)).Solves x → ¬ (crossing (-3)).NonNegative x) ∧
    ∃ s', Action.firstPhase 20 false (Session.start (crossing (-1))) = .ok (.optimal [2, 3, 4]) s' ∧
      ∃ x, s'.program.solution [2, 3, 4] = .ok x ∧ (∀ i < 3, x.getD (3 + i) 0 = 0) ∧
        (crossing (-1)).Solves (pointAt x) ∧ (crossing (-1)).NonNegative (pointAt x) := by
  have hnone : result? (Action.firstPhase 20 false) (Session.start (crossing (-3))) =
      some .infeasible := by
    decide +kernel
  have hsome : result? (Action.firstPhase 20 false) (Session.start (crossing (-1))) =
      some (.optimal [2, 3, 4]) := by decide +kernel
  obtain ⟨s₁, hnone⟩ := exists_of_result? hnone
  obtain ⟨s₂, hsome⟩ := exists_of_result? hsome
  have signed :=
    fun value => firstPhase_signed (s := Session.start (crossing value)) (shaped_crossing value)
    (isStandard_crossing value) rfl rfl
  refine ⟨⟨s₁, hnone, ((signed (-3)).2.2 20 _ s₁ hnone).1.1 rfl⟩, s₂, hsome, ?_⟩
  obtain ⟨nonbasic, x, ho, hx⟩ := ((signed (-1)).2.2 20 _ s₂ hsome).2.1 nofun
  cases ho
  exact ⟨x, hx⟩

end Action

end Simplex
