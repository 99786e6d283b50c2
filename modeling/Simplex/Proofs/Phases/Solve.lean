import Simplex.Proofs.Phases.Restoration
import Simplex.Proofs.StandardForm
/-! The whole method. Its parts are put together: the standard form, one or two runs of the first
    phase, the basis that they leave, and the search of the second phase. No part makes a fault, and
    each leaves to the next what it asks for. -/

namespace Simplex.Program

/-- A tableau of the second phase for the standard form `P`, and the outcome that is read off it. -/
def SecondPhaseEnds (P p : Program ℚ) (o : Outcome) : Prop :=
  ∃ start nonbasic last, Restored P start nonbasic ∧ Reached start p last ∧
    IndexSet.Within P.n last ∧
    p.Stops last o

/-- What the outcome of the method says about the standard form `P` and about the
    tableau that is left. -/
def SolveEnds (P p : Program ℚ) : Outcome → Prop
  | .optimal nonbasic => SecondPhaseEnds P p (.optimal nonbasic)
  | .unbounded => P.tolerance = 0 → SecondPhaseEnds P p .unbounded
  | .infeasible => P.tolerance = 0 → ∀ x, P.Solves x → ¬ P.NonNegative x

end Simplex.Program

namespace Simplex.Action.Runs
open Program
variable {P : Program ℚ} {s : Session ℚ}

/-- Only the signed weights have a verdict on the program. -/
theorem feasibleBasis (hs : s.program = P) (hP : P.Rectangular) (hsharp : P.Sharp)
    (hstandard : P.standard = true) (hsimplex : P.simplex = false) (limit : ℕ) :
    Runs P.tolerance (Action.feasibleBasis limit P) s fun o s' =>
      ∃ absolute, FirstPhaseEnds P absolute s'.program o ∧
        (absolute = false ∨ ∃ nonbasic, o = .optimal nonbasic) := by
  have again : ∀ (ended : Outcome) (s' : Session ℚ), Runs P.tolerance
      (do Action.note (.retry ended); Action.setProgram P; Action.firstPhase limit false) s'
      fun o s' =>
        ∃ absolute, FirstPhaseEnds P absolute s'.program o ∧
          (absolute = false ∨ ∃ nonbasic, o = .optimal nonbasic) := by
    intro ended s'
    refine note ?_ (setProgram ?_)
    · trivial
    · exact (firstPhase rfl hP hsharp hstandard hsimplex limit false).mono fun o s'' h =>
        ⟨false, h, .inl rfl⟩
  refine bind (firstPhase hs hP hsharp hstandard hsimplex limit true) fun o s' h => ?_
  cases o with
  | optimal nonbasic => exact pure ⟨true, h, .inr ⟨nonbasic, rfl⟩⟩
  | unbounded => exact again _ s'
  | infeasible => exact again _ s'

/-- The artificial variables leave, and the redundant rows with them. -/
theorem dropArtificials {absolute : Bool} {nonbasic : List ℤ}
    (h : Found P absolute s.program nonbasic) (hP : P.Rectangular) (hsharp : P.Sharp) :
    Runs P.tolerance (Action.dropArtificials P.n nonbasic) s fun left s' =>
      ∃ p nonbasic redundant B, Replacing (P.auxiliary absolute) P.n [] p nonbasic redundant B ∧
        s'.program = p.strip P.n redundant ∧ left = nonbasic.filter (· < (P.n : ℤ)) := by
  have htol : (P.auxiliary absolute).tolerance = P.tolerance := tolerance_auxiliary hP
  have hsharp' : (P.auxiliary absolute).Sharp := hsharp.congr htol
  have hn : P.n ≤ (P.auxiliary absolute).n := by
    rw [n_auxiliary hP]
    exact Nat.le_add_right _ _
  have hdrop : ∀ j ∈ (List.range s.program.n).drop P.n, P.n ≤ j ∧ j < (P.auxiliary absolute).n :=
    fun j hj => by rwa [← h.reached.tableau.n, ← mem_drop_range]
  have hreplace :=
    replaceArtificials hsharp' hn (List.nodup_range.sublist (List.drop_sublist _ _)) hdrop
    (Replacing.of_found h hP)
  rw [htol] at hreplace
  refine program (bind hreplace fun r s₁ ⟨B, hr⟩ => ?_)
  obtain ⟨nonbasic, redundant⟩ := r
  dsimp only at hr ⊢
  split_ifs with hred
  · refine note ?_ (change (pure ⟨s₁.program, nonbasic, redundant, B, hr, rfl, rfl⟩))
    trivial
  · exact change (pure ⟨s₁.program, nonbasic, redundant, B, hr, rfl, rfl⟩)

/-- The objective of the standard form comes back in terms of the basis. -/
theorem restoreObjective {absolute : Bool} {p : Program ℚ} {nonbasic : List ℤ} {redundant : List ℕ}
    {B : ℕ → ℕ} (h : Replacing (P.auxiliary absolute) P.n [] p nonbasic redundant B)
    (hP : P.Rectangular) (hsharp : P.Sharp) (hs : s.program = p.strip P.n redundant) :
    Runs P.tolerance (Action.restoreObjective P (nonbasic.filter (· < (P.n : ℤ)))) s
      fun _ s' => Restored P s'.program (nonbasic.filter (· < (P.n : ℤ))) := by
  have hsharp' : (p.strip P.n redundant).Sharp :=
    hsharp.congr (h.tableau.tolerance.trans (tolerance_auxiliary hP))
  refine program ?_
  rw [hs]
  exact basis ((h.basis_strip hP).basicVariables_eq hsharp') ⟨.refl, h.restored hP⟩

/-- The search of the second phase. -/
theorem secondPhase {nonbasic : List ℤ} (h : Restored P s.program nonbasic) (hsharp : P.Sharp)
    (limit : ℕ) :
    Runs P.tolerance (Action.solveFrom limit nonbasic) s
      fun o s' => SolveEnds P s'.program o := by
  obtain ⟨B, hB⟩ := h.basis
  have hsearch :=
    Runs.search_reached (hsharp.congr h.tolerance) limit (.refl h.rectangular hB)
      (h.n.symm ▸ h.within)
  rw [h.tolerance, h.n, ← IndexSet.ofList_of_pairwise h.within.sorted] at hsearch
  refine (solveFrom h.simplex hsearch).mono fun o s' ⟨last, hlast, hwithin, hstop⟩ => ?_
  cases o with
  | infeasible => exact hstop.elim
  | unbounded => exact fun _ => ⟨s.program, nonbasic, last, h, hlast, hwithin, hstop⟩
  | optimal found => exact ⟨s.program, nonbasic, last, h, hlast, hwithin, hstop⟩

/-- The method makes no fault, and its outcome is about the standard form. -/
theorem solve (hp : s.program.WellFormed) (hsharp : s.program.Sharp) (limit : ℕ) :
    Runs s.program.tolerance (Action.solve limit) s fun o s' =>
      ∃ q, StandardFormOf s.program q ∧ SolveEnds q s'.program o := by
  refine bind (standardize hp) fun _ s₁ hs₁ => change (program ?_)
  have hform := hs₁.withSimplex false
  set P := { s₁.program with simplex := false } with hPdef
  have hP := hform.wellFormed.toRectangular
  have hsharp : P.Sharp := hsharp.congr hform.tolerance
  rw [← hform.tolerance]
  refine bind (feasibleBasis (P := P) rfl hP hsharp hform.standard rfl limit)
    fun o s₂ ⟨absolute, hends, ho⟩ => ?_
  -- a verdict against the program comes from the second try, with signed weights
  cases o with
  | infeasible =>
    have hsigned : absolute = false := ho.resolve_right (by simp)
    exact pure ⟨P, hform, fun ht => hends ht hsigned⟩
  | unbounded =>
    have hsigned : absolute = false := ho.resolve_right (by simp)
    exact pure ⟨P, hform, fun ht => absurd (hends ht) (hsigned ▸ Bool.false_ne_true)⟩
  | optimal nonbasic =>
    refine bind (dropArtificials hends hP hsharp)
      fun left s₃ ⟨p, _, redundant, B, hr, hs₃, hleft⟩ => ?_
    rw [hleft]
    refine bind (restoreObjective hr hP hsharp hs₃) fun _ s₄ hs₄ => program (note ?_ ?_)
    · trivial
    · refine (secondPhase ?_ hsharp limit).mono fun o s' h => ⟨P, hform, h⟩
      exact hs₄

end Simplex.Action.Runs
