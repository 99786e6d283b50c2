import Simplex.Proofs.Change
import Simplex.Proofs.Phases.Feasibility
import Simplex.Proofs.Phases.Solve
import Simplex.Proofs.Tableau.Rank
/-! Where the second phase starts. Whatever basis the first phase has found, and under
    whatever weights, the artificial variables leave, the redundant rows go, and the objective
    comes back without a fault. What is left is the standard form again: it has the same
    variables and solutions and the same objective at them, and as many rows as the standard
    form has independent ones. -/

namespace Simplex

namespace Program

/-! ### What a tableau keeps -/

section Frame
variable {p q P : Program ℚ}

theorem TableauOf.shaped (h : TableauOf q p) (hq : q.Shaped) : p.Shaped := by
  refine ⟨h.rectangular, ?_, ?_⟩
  · rw [h.n, h.frame]
    exact hq.restrictions
  · rw [h.m, h.frame]
    exact hq.relations

theorem TableauOf.isStandard (h : TableauOf q p) (hq : q.IsStandard) : p.IsStandard := by
  rw [h.frame]
  exact ⟨hq.objective, hq.relations, hq.restrictions⟩

theorem IsStandard.auxiliary (h : p.IsStandard) (absolute : Bool) :
    (p.auxiliary absolute).IsStandard := by
  obtain ⟨-, -, hkept⟩ := addArtificials_flags (p.normalizeSigns.auxiliaryObjective absolute)
  obtain ⟨hobjective, hequal, hnonneg⟩ := hkept ⟨h.objective, h.relations, h.restrictions⟩
  exact ⟨hobjective, hequal, hnonneg⟩

theorem IsStandard.strip (h : p.IsStandard) (n : ℕ) (dropped : List ℕ) :
    (p.strip n dropped).IsStandard :=
  ⟨h.objective, fun r hr => h.relations r (mem_of_mem_dropPositions hr),
    fun r hr => h.restrictions r (List.mem_of_mem_take hr)⟩

/-- The artificial variables come after the restrictions of the others. -/
theorem restrictions_artificials (k : ℕ) :
    (p.artificials k).restrictions = p.restrictions ++ List.replicate k .nonNegative := by
  induction k with
  | zero => exact (List.append_nil _).symm
  | succ k ih =>
    rw [artificials_succ, List.replicate_succ', ← List.append_assoc, ← ih]
    rfl

theorem take_restrictions_auxiliary (h : P.restrictions.length = P.n) (absolute : Bool) :
    (P.auxiliary absolute).restrictions.take P.n = P.restrictions := by
  have hrestrictions := restrictions_artificials (p := P.normalizeSigns.auxiliaryObjective absolute)
    (P.normalizeSigns.auxiliaryObjective absolute).m
  change ((P.normalizeSigns.auxiliaryObjective absolute).artificials _).restrictions.take P.n = _
  rw [hrestrictions]
  exact List.take_left' h

end Frame

/-! ### The tableau that is left -/

/-- The standard form `P` again, as a tableau whose columns outside the nonbasic variables are the
    unit columns of its rows, without cost. -/
structure Restart (P p : Program ℚ) (nonbasic : List ℤ) : Prop where
  shaped : p.Shaped
  standard : p.IsStandard
  flags : p.standard = true ∧ p.simplex = true
  n : p.n = P.n
  restrictions : p.restrictions = P.restrictions
  solves : ∀ x, p.Solves x ↔ P.Solves x
  objectiveAt : ∀ x, P.Solves x → p.objectiveAt x = P.objectiveAt x
  within : IndexSet.Within p.n nonbasic
  basis : ∃ B, p.Basis nonbasic B
  nonneg : ∀ i < p.m, 0 ≤ p.value i
  rank : p.m = (P.coefficients P.m P.n).rank

/-- No row that is left follows from the others, and those that were dropped did. -/
theorem Replacing.restart {P p : Program ℚ} {absolute : Bool} {nonbasic : List ℤ}
    {redundant : List ℕ} {B : ℕ → ℕ}
    (h : Replacing (P.auxiliary absolute) P.n [] p nonbasic redundant B) (hP : P.Shaped)
    (hstandard : P.IsStandard) (ht : P.tolerance = 0) :
    Restart P ((p.strip P.n redundant).withObjective P
      ((List.range (p.strip P.n redundant).m).map (B ∘ p.kept redundant)))
      (nonbasic.filter (· < (P.n : ℤ))) := by
  have hrestored := h.restored hP.toRectangular
  have hn := h.n_le hP.toRectangular
  have hshaped := (h.tableau.shaped (hP.auxiliary absolute).1).strip hn redundant
  obtain ⟨hobjective, hequal, hnonneg⟩ :=
    (h.tableau.isStandard (hstandard.auxiliary absolute)).strip P.n redundant
  obtain ⟨C, hC⟩ := hrestored.basis
  refine ⟨hshaped.withObjective (n_strip hn) _, ⟨hobjective, hequal, hnonneg⟩, ⟨rfl, rfl⟩,
    hrestored.n, ?_, hrestored.solves ht, hrestored.objectiveAt ht,
    hrestored.n.symm ▸ hrestored.within, ⟨C, hC⟩, hrestored.nonneg ht, ?_⟩
  · change p.restrictions.take P.n = P.restrictions
    rw [h.tableau.frame]
    exact take_restrictions_auxiliary hP.restrictions absolute
  · have hrank := rank_eq_of_solves hrestored.n rfl (hrestored.solves ht) hC.solves_basicPoint
    rw [← hrank, hC.rank_eq hrestored.n]

end Program

namespace Action

/-! ### Actions that make no search -/

section Stepless
variable {K α β : Type}

/-- The action makes no search, so it is never out of steps. -/
def Stepless (act : Action K α) : Prop := ∀ ⦃s s'⦄, act s ≠ .error .outOfSteps s'

namespace Stepless
variable {act act' : Action K α} {f : α → Action K β}

theorem pure (a : α) : Stepless (pure a : Action K α) := nofun

theorem throw {e : Fault} (he : e ≠ .outOfSteps) : Stepless (throw e : Action K α) := by
  intro s s' h
  cases h
  exact he rfl

/-- What comes after a failure is not done. -/
theorem fail {e : Fault} (he : e ≠ .outOfSteps) :
    Stepless ((MonadExcept.throw e : Action K α) >>= f) := by
  intro s s' h
  cases h
  exact he rfl

theorem bind (h : Stepless act) (hf : ∀ a, Stepless (f a)) : Stepless (act >>= f) := by
  intro s s' hs
  change EStateM.bind act f s = _ at hs
  unfold EStateM.bind at hs
  cases hact : act s with
  | ok a s₁ =>
    rw [hact] at hs
    exact hf a hs
  | error e s₁ =>
    rw [hact] at hs
    cases hs
    exact h hact

theorem ite {c : Prop} [Decidable c] (h : Stepless act) (h' : Stepless act') :
    Stepless (if c then act else act') := by
  split
  · exact h
  · exact h'

theorem basis (x : Except BasisFault α) : Stepless (Action.basis (K := K) x) := by
  cases x with
  | ok a => exact pure a
  | error e => exact throw nofun

theorem program : Stepless (Action.program (K := K)) := nofun

theorem change (g : Program K → Program K) : Stepless (Action.change g) := nofun

theorem note (e : Event K) : Stepless (Action.note e) := nofun

variable [Scalar K]

theorem pivot (row column : ℤ) : Stepless (Action.pivot (K := K) row column) := by
  refine program.bind fun p => ?_
  split
  · exact throw nofun
  · exact throw nofun
  · exact (note _).bind fun _ => nofun

theorem replaceArtificials (structural : ℕ) :
    ∀ (js : List ℕ) (nonbasic : List ℤ) (redundant : List ℕ),
    Stepless (Action.replaceArtificials (K := K) structural js nonbasic redundant)
  | [], _, _ => pure _
  | j :: js, nonbasic, redundant => by
    refine ite (replaceArtificials structural js _ _) ?_
    refine program.bind fun p => (basis _).bind fun row => ?_
    split
    · exact replaceArtificials structural js _ _
    · exact ite (fail nofun) ((pivot _ _).bind fun _ => replaceArtificials structural js _ _)

theorem dropArtificials (structural : ℕ) (nonbasic : List ℤ) :
    Stepless (Action.dropArtificials (K := K) structural nonbasic) := by
  refine program.bind fun p => (replaceArtificials structural _ _ _).bind fun x => ?_
  refine ite ((note _).bind fun _ => ?_) ?_
  all_goals exact (change _).bind fun _ => pure _

end Stepless

end Stepless

/-! ### The start of the second phase -/

open Program

/-- A run that makes no search ends as promised. -/
theorem Runs.exists_ok {α : Type} {t : ℚ} {act : Action ℚ α} {s : Session ℚ}
    {Q : α → Session ℚ → Prop} (h : Runs t act s Q) (hact : Stepless act) :
    ∃ a s', act s = .ok a s' ∧ Q a s' := by
  cases hs : act s with
  | ok a s' => exact ⟨a, s', rfl, h.of_ok hs⟩
  | error e s' => exact absurd (h.of_error hs ▸ hs) (@hact s s')

/-- The objective comes back in terms of the basis that is left. -/
theorem restoreObjective_eq {P p : Program ℚ} {nonbasic : List ℤ} {B : ℕ → ℕ} {s : Session ℚ}
    (hs : s.program = p) (hB : p.Basis nonbasic B) (hsharp : p.Sharp) :
    Action.restoreObjective P nonbasic s =
      .ok () { s with program := p.withObjective P ((List.range p.m).map B) } := by
  subst hs
  simp only [Action.restoreObjective, bind, EStateM.bind, program,
    hB.basicVariables_eq hsharp, basis]
  rfl

/-- After a first phase that has found a basis, under either weights, the artificial variables leave
    and the objective comes back. What the second phase starts from is the standard form again, with
    as many rows as its matrix has independent ones. -/
theorem restoreObjective_restart {s s₁ : Session ℚ} {limit : ℕ} {absolute : Bool}
    {nonbasic : List ℤ} (hp : s.program.Shaped) (hstandard : s.program.IsStandard)
    (hsimplex : s.program.simplex = false) (ht : s.program.tolerance = 0)
    (h : Action.firstPhase limit absolute s = .ok (.optimal nonbasic) s₁) :
    ∃ left s₂ s₃, Action.dropArtificials s.program.n nonbasic s₁ = .ok left s₂ ∧
      Action.restoreObjective s.program left s₂ = .ok () s₃ ∧
      Restart s.program s₃.program left := by
  have hP := hp.marked.toRectangular
  have hsharp : s.program.marked.Sharp := ⟨ht.ge, ht ▸ zero_lt_one⟩
  rw [firstPhase_marked hp hstandard hsimplex] at h
  have hfound : Found s.program.marked absolute s₁.program nonbasic := (Runs.firstPhase
    (s := { s with program := s.program.marked }) rfl hP hsharp rfl rfl limit absolute).of_ok h
  obtain ⟨_, s₂, hdrop, p, found, redundant, B, hreplacing, hs₂, rfl⟩ :=
    (Runs.dropArtificials hfound hP hsharp).exists_ok (Stepless.dropArtificials _ _)
  -- the tolerance has lasted, so unit columns are still told from the others
  have hsharp' : (p.strip s.program.marked.n redundant).Sharp :=
    hsharp.congr (hreplacing.tableau.tolerance.trans (tolerance_auxiliary hP))
  have hrestore := restoreObjective_eq (P := s.program) hs₂ (hreplacing.basis_strip hP) hsharp'
  refine ⟨_, s₂, _, hdrop, hrestore, ?_⟩
  have hrestart := hreplacing.restart hp.marked hstandard.marked ht
  exact ⟨hrestart.shaped, hrestart.standard, hrestart.flags, hrestart.n, hrestart.restrictions,
    hrestart.solves, hrestart.objectiveAt, hrestart.within, hrestart.basis, hrestart.nonneg,
    hrestart.rank⟩

end Action

namespace Program

/-- Four equations, of which the third is the first over again. -/
def leaningRows : Program ℚ :=
  { objective := .maximize
    costs := [1, 2, 3, 4]
    constant := 5
    restrictions := List.replicate 4 .nonNegative
    relations := List.replicate 4 .equal
    rhs := [0, 1, 0, 0]
    rows := [[-1, -1, 0, -1], [0, 0, 1, 0], [-1, -1, 0, -1], [-1, 0, 0, -2]]
    standard := true
    simplex := false
    tolerance := 0 }

theorem shaped_leaningRows : leaningRows.Shaped := ⟨by decide, rfl, le_rfl⟩

theorem isStandard_leaningRows : leaningRows.IsStandard :=
  ⟨rfl, fun _ => List.eq_of_mem_replicate, fun _ => List.eq_of_mem_replicate⟩

end Program

namespace Action
open Program

/-- Three artificial variables are left in the basis. Two give their places to variables of the
    program, the first of them by a pivot on `-1`, and the third goes with its row. -/
theorem restoreObjective_restart_leaningRows :
    ∃ s₁, Action.firstPhase 20 false (Session.start leaningRows) = .ok (.optimal [0, 1, 3, 5]) s₁ ∧
      ∃ left s₂ s₃, Action.dropArtificials 4 [0, 1, 3, 5] s₁ = .ok left s₂ ∧
        Action.restoreObjective leaningRows left s₂ = .ok () s₃ ∧
        Restart leaningRows s₃.program left := by
  have hrun : result? (Action.firstPhase 20 false) (Session.start leaningRows) =
      some (.optimal [0, 1, 3, 5]) := by decide +kernel
  obtain ⟨s₁, hs₁⟩ := exists_of_result? hrun
  exact ⟨s₁, hs₁, restoreObjective_restart (s := Session.start leaningRows) shaped_leaningRows
    isStandard_leaningRows rfl rfl hs₁⟩

end Action

end Simplex
