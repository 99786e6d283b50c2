import Simplex.Proofs.Optimality
/-! What never happens. The tolerance may be any below one, and numbers are exact. The only
    failure of the method is that it has used up its steps, which a run without a limit does not
    have, and no pivot is on an element within the tolerance. At every search step with a leaving
    row there is one variable to leave, since a step that finds none or several is a failure, and
    no failure is made good. -/

namespace Simplex

/-- A step with a leaving row goes on just if there is one candidate to leave and the entering
    variable is nonbasic. -/
theorem Program.exists_move_iff {p : Program ℚ} {nonbasic : List ℤ} {e r : ℕ}
    (he : p.entering? = some e) (hr : p.leavingRow? e = some r) :
    (∃ move, p.move nonbasic = .ok move) ↔
      (∃ l, p.candidates nonbasic r = [l]) ∧ (e : ℤ) ∈ nonbasic := by
  have hmove : p.move nonbasic = (p.leavingVariable nonbasic r).bind fun leaving =>
      if nonbasic.contains (e : ℤ) then .ok (.exchange r e leaving) else .error .enteringBasic := by
    simp only [Program.move, he, hr]
    rfl
  rw [hmove, Program.leavingVariable]
  rcases p.candidates nonbasic r with _ | ⟨l, _ | ⟨l', rest⟩⟩
  · simp [Except.bind]
  · by_cases hmem : (e : ℤ) ∈ nonbasic <;> simp [Except.bind, hmem]
  · simp [Except.bind]

namespace Action
open Program

/-- A step that finds no move ends the search with a failure. -/
theorem search_of_fault {s : Session ℚ} {nonbasic : List ℤ} {f : BasisFault}
    (h : s.program.move nonbasic = .error f) (limit : ℕ) :
    Action.search (limit + 1) nonbasic s = .error (.basis f) s := by
  simp only [Action.search, bind, EStateM.bind, program, h]
  rfl

/-- The method makes no fault. If it does not come to its end, the steps were too few, and no lookup
    in the basis or in the matrix has failed. All pivots are on elements above the tolerance. At
    every search step that a run comes to and that has a leaving row, there is one candidate to
    leave and the entering variable is nonbasic. -/
theorem solve_faultless {s : Session ℚ} (hp : s.program.WellFormed) (h0 : 0 ≤ s.program.tolerance)
    (h1 : s.program.tolerance < 1) (limit : ℕ) :
    (∀ e s', Action.solve limit s = .error e s' → e = .outOfSteps) ∧
    (∃ events, ((Action.solve limit).after s).journal = events ++ s.journal ∧
      ∀ a small r c, Event.pivoted a small r c ∈ events → s.program.tolerance < |a| ∧
      small = false) ∧
    ∀ (steps : ℕ) (nonbasic : List ℤ) (s₁ : Session ℚ),
      ComesTo (Action.search (steps + 1) nonbasic) s₁ (Action.solve limit) s →
      ∀ e r, s₁.program.entering? = some e → s₁.program.leavingRow? e = some r →
        (∃ l, s₁.program.candidates nonbasic r = [l]) ∧ (e : ℤ) ∈ nonbasic := by
  have hrun := Runs.solve hp ⟨h0, h1⟩ limit
  refine ⟨fun e s' h => hrun.of_error h, ?_, ?_⟩
  · obtain ⟨events, hjournal, habove⟩ := hrun.pivotsAbove
    exact ⟨events, hjournal, fun a small r c hmem => habove _ hmem⟩
  · intro steps nonbasic s₁ hcomes e r he hr
    rw [← exists_move_iff he hr]
    cases hmove : s₁.program.move nonbasic with
    | ok move => exact ⟨move, rfl⟩
    | error f =>
      -- a fault of the search would be a fault of the whole run, which has none but the limit
      have hfail := hrun.of_error (hcomes.error (search_of_fault hmove steps))
      cases hfail

/-- A solution comes to the search of its first phase as soon as its standard form is prepared. -/
theorem comesTo_firstSearch {s t standard s₁ : Session ℚ} {limit : ℕ}
    (ht : Action.standardize s = .ok () t)
    (hstandard : Action.change (fun p => { p with simplex := false }) t = .ok () standard)
    (hprepare : Action.prepare true standard = .ok () s₁) (hprepared : s₁.program.simplex = true) :
    ComesTo (Action.search limit (IndexSet.ofList (IndexSet.below standard.program.n))) s₁
      (Action.solve limit) s := by
  have hread : ∀ s : Session ℚ, Action.program s = .ok s.program s := fun _ => rfl
  have hsearch :
      ComesTo (Action.search limit (IndexSet.ofList (IndexSet.below standard.program.n))) s₁
      (Action.solveFrom limit (IndexSet.below standard.program.n)) s₁ := by
    refine .later (hread s₁) ?_
    rw [hprepared]
    exact .later rfl .here
  refine .later ht (.later hstandard (.later (hread standard) ?_))
  exact .first (.first (.later (hread standard) (.later hprepare (.first hsearch))))

/-- Two lines under a wide tolerance. -/
def wideLines : Session ℚ := Session.start { parallelLines .maximize 2 with tolerance := 3 / 4 }

theorem wellFormed_wideLines : wideLines.program.WellFormed :=
  ⟨by decide, rfl, rfl, fun hs => absurd hs Bool.false_ne_true⟩

/-- The run comes to a search of seven variables, in which the first one enters at the first row. -/
theorem solve_faultless_wideLines :
    (∀ e s', Action.solve 20 wideLines = .error e s' → e = .outOfSteps) ∧
    (∃ events, ((Action.solve 20).after wideLines).journal = events ++ [] ∧
      ∀ a small r c, Event.pivoted a small r c ∈ events → 3 / 4 < |a| ∧ small = false) ∧
    ∃ s₁, ComesTo (Action.search 20 [0, 1, 2, 3]) s₁ (Action.solve 20) wideLines ∧
      s₁.program.n = 7 ∧ s₁.program.entering? = some 0 ∧ s₁.program.leavingRow? 0 = some 0 ∧
      (∃ l, s₁.program.candidates [0, 1, 2, 3] 0 = [l]) ∧ (0 : ℤ) ∈ [0, 1, 2, 3] := by
  let standard :=
    (Action.change fun p => { p with simplex := false }).after (Action.standardize.after wideLines)
  let s₁ : Session ℚ := (Action.prepare true).after standard
  have hcomes : ComesTo (Action.search (19 + 1) [0, 1, 2, 3]) s₁ (Action.solve 20) wideLines := by
    have hn : standard.program.n = 4 := by decide +kernel
    have hsearch :
        ComesTo (Action.search 20 (IndexSet.ofList (IndexSet.below standard.program.n))) s₁
        (Action.solve 20) wideLines :=
      comesTo_firstSearch (eq_ok_of_result? (by decide +kernel)) rfl
        (eq_ok_of_result? (by decide +kernel))
        (by decide +kernel)
    rwa [hn] at hsearch
  have hentering : s₁.program.entering? = some 0 := by decide +kernel
  have hrow : s₁.program.leavingRow? 0 = some 0 := by decide +kernel
  obtain ⟨hfault, hpivots, hsteps⟩ :=
    solve_faultless wellFormed_wideLines (by decide +kernel) (by decide +kernel) 20
  exact ⟨hfault, hpivots, s₁, hcomes, by decide +kernel, hentering, hrow,
    hsteps 19 [0, 1, 2, 3] s₁ hcomes 0 0 hentering hrow⟩

end Action

end Simplex
