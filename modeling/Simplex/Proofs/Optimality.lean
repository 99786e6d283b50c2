import Mathlib.Data.List.Perm.Basic
import Simplex.Proofs.Phases.Solve
/-! What an answer of the method is worth. Without tolerance an optimum is one: the point read off
    the last tableau is feasible for the program that was given and none of its points is better.
    The other two answers are right as well: where there is said to be no feasible point there is
    none, and where there is said to be no bound the objective passes every bound. -/

namespace Simplex

namespace Program

/-- Variables that are not basic are as many as there are more variables than rows. -/
theorem Basis.length_nonbasic {p : Program ℚ} {nonbasic : List ℤ} {B : ℕ → ℕ}
    (h : p.Basis nonbasic B) (hw : IndexSet.Within p.n nonbasic) : nonbasic.length + p.m = p.n := by
  -- the nonbasic columns and the columns of the rows are all the columns, each once
  have hperm : (nonbasic.map Int.toNat ++ (List.range p.m).map B).Perm (List.range p.n) := by
    refine (List.perm_ext_iff_of_nodup ?_ List.nodup_range).2 fun j => ?_
    · refine List.Nodup.append ?_ ?_ fun j hj hjB => ?_
      · refine List.Nodup.map_on (fun a ha b hb hab => ?_) (hw.sorted.imp fun hlt => hlt.ne)
        have := (hw.range a ha).1
        have := (hw.range b hb).1
        omega
      · exact List.Nodup.map_on (fun a ha b hb hab =>
          h.injective (List.mem_range.1 ha) (List.mem_range.1 hb) hab) List.nodup_range
      · obtain ⟨k, hk, rfl⟩ := List.mem_map.1 hj
        obtain ⟨i, hi, hik⟩ := List.mem_map.1 hjB
        refine h.notMem (List.mem_range.1 hi) ?_
        rwa [hik, Int.toNat_of_nonneg (hw.range k hk).1]
    · rw [List.mem_append, List.mem_range]
      constructor
      · rintro (hj | hj)
        · obtain ⟨k, hk, rfl⟩ := List.mem_map.1 hj
          have := hw.range k hk
          omega
        · obtain ⟨i, hi, rfl⟩ := List.mem_map.1 hj
          exact h.lt i (List.mem_range.1 hi)
      · intro hj
        by_cases hmem : (j : ℤ) ∈ nonbasic
        · exact .inl (List.mem_map.2 ⟨j, hmem, Int.toNat_natCast j⟩)
        · obtain ⟨i, hi, hij⟩ := h.exists_of_notMem hj hmem
          exact .inr (List.mem_map.2 ⟨i, List.mem_range.2 hi, hij⟩)
  have hlen := hperm.length_eq
  rwa [List.length_append, List.length_map, List.length_map, List.length_range,
    List.length_range] at hlen

section SecondPhase
variable {P p q : Program ℚ}

/-- The point of the last tableau is the best solution of the standard form. -/
theorem SecondPhaseEnds.optimal {nonbasic : List ℤ} (h : SecondPhaseEnds P p (.optimal nonbasic))
    (ht : P.tolerance = 0) :
    ∃ x, p.solution nonbasic = .ok x ∧ P.Solves (pointAt x) ∧ P.NonNegative (pointAt x) ∧
      P.objectiveAt (pointAt x) = p.constant ∧
      ∀ y, P.Solves y → P.NonNegative y → P.objectiveAt y ≤ p.constant := by
  obtain ⟨start, _, last, hstart, hlast, _, rfl, hcost⟩ := h
  have hstart0 : start.tolerance = 0 := hstart.tolerance.trans ht
  rw [hlast.tableau.tolerance, hstart0] at hcost
  obtain ⟨x, hx, hsolves, hn, hvalue, hbest⟩ :=
    hlast.exists_optimum hstart0 (hstart.nonneg ht) hcost
  have hsolves' := (hstart.solves ht _).1 hsolves
  refine ⟨x, hx, hsolves', fun j hj => hn j (hstart.n ▸ hj), ?_, ?_⟩
  · rw [← hstart.objectiveAt ht _ hsolves', hvalue]
  · intro y hy hn
    rw [← hstart.objectiveAt ht y hy]
    exact hbest y ((hstart.solves ht y).2 hy) fun j hj => hn j (hstart.n ▸ hj)

/-- The nonbasic variables of the last tableau. -/
theorem SecondPhaseEnds.nonbasic {nonbasic : List ℤ} (h : SecondPhaseEnds P p (.optimal nonbasic)) :
    IndexSet.Within p.n nonbasic ∧ nonbasic.length + p.m = p.n := by
  obtain ⟨start, _, last, hstart, hlast, hwithin, rfl, _⟩ := h
  obtain ⟨B, hB⟩ := hlast.basis
  have hw : IndexSet.Within p.n nonbasic := by rwa [hlast.tableau.n, hstart.n]
  exact ⟨hw, hB.length_nonbasic hw⟩

/-- The solutions of the standard form have no greatest objective. -/
theorem SecondPhaseEnds.unbounded (h : SecondPhaseEnds P p .unbounded) (ht : P.tolerance = 0)
    (K : ℚ) :
    ∃ x, P.Solves x ∧ P.NonNegative x ∧ K < P.objectiveAt x := by
  obtain ⟨start, _, last, hstart, hlast, _, hstop⟩ := h
  obtain ⟨x, hx, hn, hK⟩ :=
    hlast.exists_objectiveAt_gt (hstart.tolerance.trans ht) (hstart.nonneg ht) hstop K
  have hsolves := (hstart.solves ht x).1 hx
  refine ⟨x, hsolves, fun j hj => hn j (hstart.n.symm ▸ hj), ?_⟩
  rwa [← hstart.objectiveAt ht x hsolves]

theorem StandardFormOf.exists_solves (h : StandardFormOf p q) {x : Point} (hx : p.Feasible x) :
    ∃ y, q.Solves y ∧ q.NonNegative y ∧
    q.objectiveAt y = p.objective.asMaximum (p.objectiveAt x) := by
  obtain ⟨y, hn, hsolves, hyx⟩ := (h.feasible_iff_exists x).1 hx
  exact ⟨y, hsolves, hn, by rw [h.objectiveAt, objectiveAt_congr hyx]⟩

end SecondPhase

/-- Two parallel lines, which are one line if the second value is twice the
    first, and a half-plane. -/
def parallelLines (objective : Objective) (value : ℚ) : Program ℚ :=
  { objective
    costs := [1, 2]
    constant := 3
    restrictions := [.nonNegative, .unrestricted]
    relations := [.equal, .greaterEqual, .equal]
    rhs := [1, -5, value]
    rows := [[1, -1], [1, 1], [2, -2]]
    standard := false
    simplex := false
    tolerance := 0 }

theorem wellFormed_parallelLines (objective : Objective) (value : ℚ) :
    (parallelLines objective value).WellFormed :=
  ⟨of_decide_eq_true rfl, rfl, rfl, fun hs => absurd hs Bool.false_ne_true⟩

end Program

namespace Action
open Program

/-- An optimum is one. The point read off the last tableau keeps to every constraint and
    restriction, no feasible point has a better objective, the constant of the tableau is its
    value up to the sense of the objective, and as many variables are nonbasic as there are
    more of them than rows. -/
theorem solve_optimal {s s' : Session ℚ} {limit : ℕ} {nonbasic : List ℤ} (hp : s.program.WellFormed)
    (ht : s.program.tolerance = 0) (h : Action.solve limit s = .ok (.optimal nonbasic) s') :
    ∃ x, s'.program.solution nonbasic = .ok x ∧
      s.program.Feasible (pointAt (s.program.recover x)) ∧
      (∀ y, s.program.Feasible y → ¬ s.program.objective.Better (s.program.objectiveAt y)
        (s.program.objectiveAt (pointAt (s.program.recover x)))) ∧
      s.program.objectiveAt (pointAt (s.program.recover x)) =
        s.program.objective.asMaximum s'.program.constant ∧
      IndexSet.Within s'.program.n nonbasic ∧ nonbasic.length + s'.program.m = s'.program.n := by
  obtain ⟨P, hP, hends⟩ := (Runs.solve hp ⟨ht.ge, ht ▸ zero_lt_one⟩ limit).of_ok h
  have ht' : P.tolerance = 0 := hP.tolerance.trans ht
  obtain ⟨x, hx, hsolves, hn, hvalue, hbest⟩ := SecondPhaseEnds.optimal hends ht'
  have hread : ∀ j < s.program.n,
      s.program.recoverPoint (pointAt x) j = pointAt (s.program.recover x) j :=
    fun j hj => (pointAt_recover x (hp.restrictions.symm ▸ hj)).symm
  have hmax : s.program.objective.asMaximum
      (s.program.objectiveAt (pointAt (s.program.recover x))) = s'.program.constant := by
    rw [← objectiveAt_congr hread, ← hP.objectiveAt, hvalue]
  refine ⟨x, hx, (hP.feasible_recoverPoint hsolves hn).congr hread, ?_, ?_,
    SecondPhaseEnds.nonbasic hends⟩
  · intro y hy hbetter
    rw [Objective.better_iff, hmax] at hbetter
    obtain ⟨y', hy', hn', heq⟩ := hP.exists_solves hy
    exact absurd (hbest y' hy' hn') (not_le.2 (heq ▸ hbetter))
  · rw [← hmax, Objective.asMaximum_asMaximum]

/-- Signed weights find the least value on the line, and a row is dropped on the way. -/
theorem solve_optimal_line : ∃ s', Action.solve 20 (Session.start (parallelLines .minimize 2)) =
    .ok (.optimal [0, 1]) s' ∧
    ∃ x, s'.program.solution [0, 1] = .ok x ∧
      (parallelLines .minimize 2).Feasible (pointAt ((parallelLines .minimize 2).recover x)) ∧
      (∀ y, (parallelLines .minimize 2).Feasible y → ¬ Objective.minimize.Better
        ((parallelLines .minimize 2).objectiveAt y)
        ((parallelLines .minimize 2).objectiveAt (pointAt ((parallelLines .minimize 2).recover x))))
          ∧
      (parallelLines .minimize 2).objectiveAt (pointAt ((parallelLines .minimize 2).recover x)) =
        -s'.program.constant ∧
      IndexSet.Within s'.program.n [0, 1] ∧ 2 + s'.program.m = s'.program.n := by
  have hrun : result? (Action.solve 20) (Session.start (parallelLines .minimize 2)) =
      some (.optimal [0, 1]) := by decide +kernel
  obtain ⟨s', hs'⟩ := exists_of_result? hrun
  exact ⟨s', hs', solve_optimal (wellFormed_parallelLines .minimize 2) rfl hs'⟩

/-- Where no optimum is reported there is none. A program that is called infeasible has no feasible
    point, and one that is called unbounded has feasible points better than any bound. -/
theorem solve_verdict {s s' : Session ℚ} {limit : ℕ} {o : Outcome} (hp : s.program.WellFormed)
    (ht : s.program.tolerance = 0) (h : Action.solve limit s = .ok o s') :
    (o = .infeasible → ∀ x, ¬ s.program.Feasible x) ∧
    (o = .unbounded → (∃ x, s.program.Feasible x) ∧
      ∀ K, ∃ x, s.program.Feasible x ∧
        s.program.objective.Better (s.program.objectiveAt x) K) := by
  obtain ⟨P, hP, hends⟩ := (Runs.solve hp ⟨ht.ge, ht ▸ zero_lt_one⟩ limit).of_ok h
  have ht' : P.tolerance = 0 := hP.tolerance.trans ht
  constructor
  · rintro rfl x hx
    obtain ⟨y, hy, hn, _⟩ := hP.exists_solves hx
    exact hends ht' y hy hn
  · rintro rfl
    have passes : ∀ K, ∃ x, s.program.Feasible x ∧
        s.program.objective.Better (s.program.objectiveAt x) K := by
      intro K
      obtain ⟨y, hy, hn, hK⟩ := (hends ht').unbounded ht' (s.program.objective.asMaximum K)
      refine ⟨_, hP.feasible_recoverPoint hy hn, ?_⟩
      rw [Objective.better_iff, ← hP.objectiveAt]
      exact hK
    exact ⟨(passes 0).imp fun _ hx => hx.1, passes⟩

/-- Lines that are apart have no point in common, and along one line the objective has no bound. -/
theorem solve_verdict_lines :
    ((∃ s', Action.solve 20 (Session.start (parallelLines .minimize 3)) = .ok .infeasible s') ∧
      ∀ x, ¬ (parallelLines .minimize 3).Feasible x) ∧
    (∃ s', Action.solve 20 (Session.start (parallelLines .maximize 2)) = .ok .unbounded s') ∧
      (∃ x, (parallelLines .maximize 2).Feasible x) ∧
      ∀ K, ∃ x, (parallelLines .maximize 2).Feasible x ∧
        Objective.maximize.Better ((parallelLines .maximize 2).objectiveAt x) K := by
  have hapart : result? (Action.solve 20) (Session.start (parallelLines .minimize 3)) =
      some .infeasible := by decide +kernel
  have hline : result? (Action.solve 20) (Session.start (parallelLines .maximize 2)) =
      some .unbounded := by decide +kernel
  obtain ⟨apart, hapart⟩ := exists_of_result? hapart
  obtain ⟨line, hline⟩ := exists_of_result? hline
  exact ⟨⟨⟨apart, hapart⟩, (solve_verdict (wellFormed_parallelLines .minimize 3) rfl hapart).1 rfl⟩,
    ⟨line, hline⟩, (solve_verdict (wellFormed_parallelLines .maximize 2) rfl hline).2 rfl⟩

end Action

end Simplex
