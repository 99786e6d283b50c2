import Simplex.Optimum.LeastIndex
import Simplex.Proofs.Optimality
/-! The method beside a general solver. The problem that is handed over has the feasible points
    of the program, and for its values those of the objective without the constant, as values to
    be minimised. Of three cases, an optimum, no feasible point and no bound, a program is in one
    at most. The method says in which, and so does a solver that is right about the problem, so
    the two say the same. -/

namespace Simplex

/-! ### Answers to a problem -/

namespace Problem
variable (q : Problem ℚ)

/-- The value of a row at a point. -/
def rowAt (row : List ℚ) (x : Point) : ℚ := ∑ j ∈ Finset.range q.costs.length, row.getD j 0 * x j

/-- The value that is to be minimised. -/
def valueAt (x : Point) : ℚ := q.rowAt q.costs x

/-- The point keeps to the upper bounds, to the equations and to every restriction. -/
structure Feasible (x : Point) : Prop where
  upper : ∀ c ∈ q.upper, q.rowAt c.1 x ≤ c.2
  equal : ∀ c ∈ q.equal, q.rowAt c.1 x = c.2
  restrictions : ∀ j < q.costs.length, q.restrictions[j]? = some .nonNegative → 0 ≤ x j

/-- A feasible point of which no feasible point has a lesser value. -/
structure Optimal (x : Point) : Prop where
  feasible : q.Feasible x
  least : ∀ y, q.Feasible y → q.valueAt x ≤ q.valueAt y

/-- The answer is right: it is an optimal point with its value if there is one, and otherwise it
    says whether the feasible points or the bounds are lacking. -/
structure AnsweredBy (answer : Answer ℚ) : Prop where
  optimum : (∃ x, q.Optimal x) →
    ∃ x, q.Optimal (pointAt x) ∧ answer = .optimum x (q.valueAt (pointAt x))
  infeasible : (∀ x, ¬ q.Feasible x) → answer = .infeasible
  unbounded : (∃ x, q.Feasible x) → (∀ K, ∃ x, q.Feasible x ∧ q.valueAt x < K) → answer = .unbounded

end Problem

theorem Objective.asMinimum_eq (o : Objective) (a : ℚ) : o.asMinimum a = -o.asMaximum a := by
  cases o
  · exact (neg_neg a).symm
  · rfl

namespace Program
variable {p : Program ℚ}

/-- The optimum of the program by a general solver. -/
def optimumWith (solver : Problem ℚ → Answer ℚ) (p : Program ℚ) : Except NoOptimum (List ℚ × ℚ) :=
  p.optimumBy (solver p.problem)

/-! ### The problem that is handed over -/

@[simp] theorem length_costs_problem : p.problem.costs.length = p.n := List.length_map _

theorem mem_constraints_iff (hp : p.WellFormed) (c : Relation × ℚ × List ℚ) :
    c ∈ p.constraints ↔ ∃ i < p.m, p.relations[i]? = some c.1 ∧ c.2 = (p.value i, p.row i) := by
  have hlength : p.constraints.length = p.m := by
    simp [constraints, hp.relations, hp.rows, m]
  have hget : ∀ i < p.m, p.constraints[i]? =
      p.relations[i]?.map fun r => (r, p.value i, p.row i) := by
    intro i hi
    have hrelations : i < p.relations.length := hp.relations.symm ▸ hi
    have hrhs : i < p.rhs.length := hi
    have hrows : i < p.rows.length := hp.rows.symm ▸ hi
    simp [constraints, value, row, hrelations, hrhs, hrows]
  rw [List.mem_iff_getElem?]
  constructor
  · rintro ⟨i, hc⟩
    have hi : i < p.m := hlength ▸ (List.getElem?_eq_some_iff.1 hc).1
    rw [hget i hi] at hc
    obtain ⟨r, hr, rfl⟩ := Option.map_eq_some_iff.1 hc
    exact ⟨i, hi, hr, rfl⟩
  · rintro ⟨i, hi, hrelation, hrest⟩
    refine ⟨i, ?_⟩
    rw [hget i hi, hrelation, Option.map_some, ← hrest]

theorem rowAt_neg_problem (row : List ℚ) (x : Point) :
    p.problem.rowAt (row.map (- ·)) x = -p.problem.rowAt row x := by
  rw [Problem.rowAt, Problem.rowAt, ← Finset.sum_neg_distrib]
  refine Finset.sum_congr rfl fun j _ => ?_
  have hneg : (row.map (- ·)).getD j 0 = -row.getD j 0 := by
    by_cases hj : j < row.length <;> simp [List.getD_eq_getElem?_getD, hj]
  rw [hneg, neg_mul]

/-- All constraints hold at a point just if what is handed over of them does. -/
theorem holds_iff_problem (x : Point) :
    (∀ c ∈ p.constraints, c.1.Holds (p.problem.rowAt c.2.2 x) c.2.1) ↔
    (∀ c ∈ p.problem.upper, p.problem.rowAt c.1 x ≤ c.2) ∧
      ∀ c ∈ p.problem.equal, p.problem.rowAt c.1 x = c.2 := by
  constructor
  · intro h
    refine ⟨?_, ?_⟩
    · intro c hc
      obtain ⟨⟨relation, b, row⟩, hmem, hgiven⟩ := List.mem_filterMap.1 hc
      have hholds := h _ hmem
      -- only inequalities become upper bounds, the ones from below with both sides negated
      cases relation with
      | equal => cases hgiven
      | lessEqual =>
        cases hgiven
        exact hholds
      | greaterEqual =>
        cases hgiven
        rw [rowAt_neg_problem]
        exact neg_le_neg hholds
    · intro c hc
      obtain ⟨⟨relation, b, row⟩, hmem, hgiven⟩ := List.mem_filterMap.1 hc
      have hholds := h _ hmem
      cases relation with
      | equal =>
        cases hgiven
        exact hholds
      | lessEqual => cases hgiven
      | greaterEqual => cases hgiven
  · rintro ⟨hupper, hequal⟩ ⟨relation, b, row⟩ hmem
    cases relation with
    | equal => exact hequal (row, b) (List.mem_filterMap.2 ⟨_, hmem, rfl⟩)
    | lessEqual => exact hupper (row, b) (List.mem_filterMap.2 ⟨_, hmem, rfl⟩)
    | greaterEqual =>
      have hbound := hupper (row.map (- ·), -b) (List.mem_filterMap.2 ⟨_, hmem, rfl⟩)
      rw [rowAt_neg_problem] at hbound
      exact neg_le_neg_iff.1 hbound

/-- The problem has the feasible points of the program. -/
theorem feasible_problem (hp : p.WellFormed) (x : Point) : p.problem.Feasible x ↔ p.Feasible x := by
  have hrow : ∀ i, p.problem.rowAt (p.row i) x = p.rowAt i x := fun i => by
    rw [Problem.rowAt, length_costs_problem]
    rfl
  have hconstraints : (∀ c ∈ p.constraints, c.1.Holds (p.problem.rowAt c.2.2 x) c.2.1) ↔
      ∀ i < p.m, ∀ r, p.relations[i]? = some r → r.Holds (p.rowAt i x) (p.value i) := by
    constructor
    · intro h i hi r hr
      rw [← hrow]
      exact h (r, p.value i, p.row i) ((mem_constraints_iff hp _).2 ⟨i, hi, hr, rfl⟩)
    · rintro h ⟨r, rest⟩ hc
      obtain ⟨i, hi, hr, rfl⟩ := (mem_constraints_iff hp _).1 hc
      dsimp only
      rw [hrow]
      exact h i hi r hr
  constructor
  · rintro ⟨hupper, hequal, hrestrictions⟩
    rw [length_costs_problem] at hrestrictions
    exact ⟨hconstraints.1 ((holds_iff_problem x).2 ⟨hupper, hequal⟩), hrestrictions⟩
  · rintro ⟨hrelations, hrestrictions⟩
    obtain ⟨hupper, hequal⟩ := (holds_iff_problem x).1 (hconstraints.2 hrelations)
    refine ⟨hupper, hequal, ?_⟩
    rwa [length_costs_problem]

/-- What is minimised is the objective without the constant, negated if it is to be maximised. -/
theorem valueAt_problem (x : Point) :
    p.problem.valueAt x = p.objective.asMaximum p.constant - p.objective.asMaximum
      (p.objectiveAt x) := by
  have hcosts : p.problem.valueAt x = ∑ j ∈ Finset.range p.n,
      -p.objective.asMaximum (p.cost j) * x j := by
    rw [Problem.valueAt, Problem.rowAt, length_costs_problem]
    refine Finset.sum_congr rfl fun j hj => ?_
    rw [← Objective.asMinimum_eq]
    exact congrArg (· * x j) (getD_map _ (Finset.mem_range.1 hj) 0 0)
  rw [hcosts, objectiveAt]
  cases p.objective with
  | maximize =>
    simp only [Objective.asMaximum, neg_mul, Finset.sum_neg_distrib]
    ring
  | minimize =>
    simp only [Objective.asMaximum, neg_neg]
    ring

/-! ### The case that a program is in -/

/-- What an outcome of the method says about a program, where `top` is the greatest value of the
    objective as one to be maximised. -/
def IsCase (p : Program ℚ) (top : ℚ) : Outcome → Prop
  | .optimal _ => ∃ x, p.Feasible x ∧ p.objective.asMaximum (p.objectiveAt x) = top ∧
      ∀ y, p.Feasible y → p.objective.asMaximum (p.objectiveAt y) ≤ top
  | .infeasible => ∀ x, ¬ p.Feasible x
  | .unbounded => ∀ K, ∃ x, p.Feasible x ∧ K < p.objective.asMaximum (p.objectiveAt x)

/-- A solver that is right about the problem answers as the program is. -/
theorem IsCase.optimumWith {top : ℚ} {o : Outcome} (h : p.IsCase top o) (hp : p.WellFormed)
    {solver : Problem ℚ → Answer ℚ} (hsolver : p.problem.AnsweredBy (solver p.problem)) :
    match o with
    | .optimal _ => ∃ x, p.optimumWith solver = .ok (x, p.objective.asMaximum top)
    | .infeasible => p.optimumWith solver = .error .infeasible
    | .unbounded => p.optimumWith solver = .error .unbounded := by
  cases o with
  | infeasible =>
    have hanswer := hsolver.infeasible fun x hx => h x ((feasible_problem hp x).1 hx)
    rw [Program.optimumWith, hanswer]
    rfl
  | unbounded =>
    have hless : ∀ K, ∃ x, p.problem.Feasible x ∧ p.problem.valueAt x < K := by
      intro K
      obtain ⟨x, hx, hK⟩ := h (p.objective.asMaximum p.constant - K)
      refine ⟨x, (feasible_problem hp x).2 hx, ?_⟩
      rw [valueAt_problem]
      linarith
    have hanswer := hsolver.unbounded ((hless 0).imp fun _ hx => hx.1) hless
    rw [Program.optimumWith, hanswer]
    rfl
  | optimal _ =>
    obtain ⟨x, hx, hvalue, hbest⟩ := h
    have hleast : p.problem.Optimal x := by
      refine ⟨(feasible_problem hp x).2 hx, fun y hy => ?_⟩
      rw [valueAt_problem, valueAt_problem]
      linarith [hbest y ((feasible_problem hp y).1 hy)]
    obtain ⟨z, hz, hanswer⟩ := hsolver.optimum ⟨x, hleast⟩
    -- the solver may choose another optimal point, of the same value
    have hsame : p.problem.valueAt (pointAt z) = p.objective.asMaximum p.constant - top := by
      rw [← hvalue, ← valueAt_problem]
      exact le_antisymm (hz.least x hleast.feasible) (hleast.least _ hz.feasible)
    refine ⟨z, ?_⟩
    rw [Program.optimumWith, hanswer, hsame, optimumBy, Objective.asMinimum_eq]
    cases p.objective <;> simp [Objective.asMaximum]

end Program

namespace Action
open Program

/-- The method ends in the case that the program is in. -/
theorem isCase_of_solve {s s' : Session ℚ} {limit : ℕ} {o : Outcome} (hp : s.program.WellFormed)
    (ht : s.program.tolerance = 0) (h : Action.solve limit s = .ok o s') :
    s.program.IsCase s'.program.constant o := by
  obtain ⟨P, hP, hends⟩ := (Runs.solve hp ⟨ht.ge, ht ▸ zero_lt_one⟩ limit).of_ok h
  have ht' : P.tolerance = 0 := hP.tolerance.trans ht
  cases o with
  | infeasible =>
    intro x hx
    obtain ⟨y, hy, hn, _⟩ := hP.exists_solves hx
    exact hends ht' y hy hn
  | unbounded =>
    intro K
    obtain ⟨y, hy, hn, hK⟩ := (hends ht').unbounded ht' K
    exact ⟨_, hP.feasible_recoverPoint hy hn, hP.objectiveAt y ▸ hK⟩
  | optimal nonbasic =>
    obtain ⟨x, _, hsolves, hn, hvalue, hbest⟩ := SecondPhaseEnds.optimal hends ht'
    refine ⟨_, hP.feasible_recoverPoint hsolves hn, by rw [← hP.objectiveAt, hvalue], ?_⟩
    intro y hy
    obtain ⟨y', hy', hn', heq⟩ := hP.exists_solves hy
    exact heq ▸ hbest y' hy' hn'

/-- The two solvers agree. The problem that the general solver is given has the feasible points
    of the program. Wherever it is right about that problem and the method comes to its end, it
    has an optimum just if the method has one, and then its value is the constant of the last
    tableau up to the sense of the objective; and it calls the program infeasible or unbounded
    just if the method does. -/
theorem solve_agrees {s : Session ℚ} (hp : s.program.WellFormed) (solver : Problem ℚ → Answer ℚ) :
    (∀ x, s.program.problem.Feasible x ↔ s.program.Feasible x) ∧
    (s.program.tolerance = 0 → s.program.problem.AnsweredBy (solver s.program.problem) →
      ∀ limit o s', Action.solve limit s = .ok o s' →
        ((∃ x v, s.program.optimumWith solver = .ok (x, v)) ↔ ∃ nonbasic, o = .optimal nonbasic) ∧
        (∀ x v, s.program.optimumWith solver = .ok (x, v) →
          v = s.program.objective.asMaximum s'.program.constant) ∧
        ((∃ f, s.program.optimumWith solver = .error f ∧ f.message = "Problem is infeasible") ↔
          o = .infeasible) ∧
        ((∃ f, s.program.optimumWith solver = .error f ∧ f.message = "Problem is unbounded") ↔
          o = .unbounded)) := by
  refine ⟨feasible_problem hp, fun ht hsolver limit o s' h => ?_⟩
  have hanswer := (isCase_of_solve hp ht h).optimumWith hp hsolver
  cases o with
  | optimal nonbasic =>
    obtain ⟨x, hx⟩ := hanswer
    simp [hx]
  | infeasible =>
    have hraised : s.program.optimumWith solver = .error .infeasible := hanswer
    simp [hraised, NoOptimum.message]
  | unbounded =>
    have hraised : s.program.optimumWith solver = .error .unbounded := hanswer
    simp [hraised, NoOptimum.message]

end Action

/-- The search that knows its basis, with twenty steps for each phase, as a general solver. -/
def Problem.leastIndexSolver (q : Problem ℚ) : Answer ℚ := (q.solve? 20).getD .infeasible

namespace Program

theorem problem_parallelLines : (parallelLines .minimize 2).problem =
    { costs := [1, 2], upper := [([-1, -1], 5)], equal := [([1, -1], 1), ([2, -2], 2)]
      restrictions := [.nonNegative, .unrestricted] } := by
  simp [problem, parallelLines, constraints, Objective.asMinimum]

/-- On the line the least value is at the end where the first variable is zero. -/
theorem answeredBy_parallelLines : (parallelLines .minimize 2).problem.AnsweredBy
    (parallelLines .minimize 2).problem.leastIndexSolver := by
  have hanswer : (parallelLines .minimize 2).problem.leastIndexSolver = .optimum [0, -1] (-2) := by
    decide +kernel
  have hend : (parallelLines .minimize 2).problem.Feasible (pointAt [0, -1]) := by
    rw [problem_parallelLines]
    refine ⟨?_, ?_, ?_⟩
    · norm_num [Problem.rowAt, pointAt, Finset.sum_range_succ]
    · norm_num [Problem.rowAt, pointAt, Finset.sum_range_succ]
    · rintro (_ | _ | j) _ hkind
      · exact le_rfl
      · cases hkind
      · cases hkind
  have hleast : ∀ y, (parallelLines .minimize 2).problem.Feasible y →
      -2 ≤ (parallelLines .minimize 2).problem.valueAt y := by
    rw [problem_parallelLines]
    intro y hy
    have hline := hy.equal ([1, -1], 1) (by simp)
    have hfirst := hy.restrictions 0 (by simp) rfl
    simp only [Problem.valueAt, Problem.rowAt, List.length_cons, List.length_nil,
      Finset.sum_range_succ, Finset.sum_range_zero] at hline ⊢
    norm_num at hline hfirst ⊢
    linarith
  have hvalue : (parallelLines .minimize 2).problem.valueAt (pointAt [0, -1]) = -2 := by
    rw [problem_parallelLines]
    norm_num [Problem.valueAt, Problem.rowAt, pointAt, Finset.sum_range_succ]
  refine ⟨fun _ => ⟨[0, -1], ⟨hend, fun y hy => hvalue ▸ hleast y hy⟩, hvalue ▸ hanswer⟩, ?_, ?_⟩
  · exact fun hnone => absurd hend (hnone _)
  · intro _ hless
    obtain ⟨y, hy, hlt⟩ := hless (-2)
    exact absurd (hleast y hy) (not_le.2 hlt)

end Program

namespace Action
open Program

/-- Both find the least value on the line, one by its tableau and the other one
    with the constant added. -/
theorem solve_agrees_line : ∃ s', Action.solve 20 (Session.start (parallelLines .minimize 2)) =
    .ok (.optimal [0, 1]) s' ∧
    (∀ x, (parallelLines .minimize 2).problem.Feasible x ↔ (parallelLines .minimize 2).Feasible x) ∧
    (∃ x v, (parallelLines .minimize 2).optimumWith Problem.leastIndexSolver = .ok (x, v)) ∧
    ∀ x v, (parallelLines .minimize 2).optimumWith Problem.leastIndexSolver = .ok (x, v) →
      v = -s'.program.constant := by
  have hrun : result? (Action.solve 20) (Session.start (parallelLines .minimize 2)) =
      some (.optimal [0, 1]) := by decide +kernel
  obtain ⟨s', hs'⟩ := exists_of_result? hrun
  obtain ⟨hproblem, hsame⟩ := solve_agrees (s := Session.start (parallelLines .minimize 2))
    (wellFormed_parallelLines .minimize 2) Problem.leastIndexSolver
  obtain ⟨hoptimum, hvalue, -⟩ := hsame rfl answeredBy_parallelLines 20 _ s' hs'
  exact ⟨s', hs', hproblem, hoptimum.2 ⟨_, rfl⟩, hvalue⟩

end Action

end Simplex
