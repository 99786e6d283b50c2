import Simplex.Proofs.Addition
import Simplex.Proofs.Shape
/-! The two loops of the standard form, whatever the scalars are. The rounds of a loop change
    a relation or a restriction each and keep the shape of the program, so the loops find
    every relation and every restriction that they look at, and in the end all of them say
    what the standard form says. -/

namespace Simplex

/-- A loop whose rounds take the program from one stage to the next ends at the last stage. -/
theorem Action.forM_range_eq {K : Type} {n : ℕ} {f : ℕ → Action K Unit} {s : Session K}
    (stage : ℕ → Program K) (start : s.program = stage 0)
    (step : ∀ k < n, f k { s with program := stage k } = .ok ()
      { s with program := stage (k + 1) }) :
    (List.range n).forM f s = .ok () { s with program := stage n } := by
  have go : ∀ len k, k + len = n →
      (List.range' k len).forM f { s with program := stage k } =
        .ok () { s with program := stage n } := by
    intro len
    induction len with
    | zero =>
      rintro k rfl
      rfl
    | succ len ih =>
      intro k hk
      change EStateM.bind _ _ _ = _
      rw [EStateM.bind, step k (by omega)]
      exact ih (k + 1) (by omega)
  rw [List.range_eq_range', ← go n 0 (Nat.zero_add n), ← start]

namespace Program

/-! ### The loops -/

section Loops
variable {K : Type} [Scalar K]

/-- The program with the first `k` constraints made equalities. -/
def addSlacks (p : Program K) (k : ℕ) : Program K :=
  (List.range k).foldl (fun q i => q.addSlack i) p

/-- The program with the first `k` variables made non-negative. -/
def splitVariables (p : Program K) (k : ℕ) : Program K :=
  (List.range k).foldl (fun q j => q.splitVariable j) p

/-- The program with a slack variable for each constraint that needs one. -/
def equalities (p : Program K) : Program K := p.toMaximize.addSlacks p.m

/-- The standard form of the program. -/
def standardForm (p : Program K) : Program K :=
  { p.equalities.splitVariables p.equalities.n with standard := true, simplex := false }

theorem addSlacks_succ (p : Program K) (k : ℕ) :
    p.addSlacks (k + 1) = (p.addSlacks k).addSlack k := by
  rw [addSlacks, List.range_succ, List.foldl_append]
  rfl

theorem splitVariables_succ (p : Program K) (k : ℕ) :
    p.splitVariables (k + 1) = (p.splitVariables k).splitVariable k := by
  rw [splitVariables, List.range_succ, List.foldl_append]
  rfl

variable {p : Program K}

/-! ### Equalities -/

theorem relations_addSlack (i : ℕ) : (p.addSlack i).relations = p.relations.set i .equal := by
  unfold addSlack
  split
  · exact (set_eq_self fun r hr => by simp_all).symm
  · exact (set_eq_self fun r hr => by simp_all).symm
  · exact relations_equalize i

theorem objective_equalize (i : ℕ) : (p.equalize i).objective = p.objective := by
  unfold equalize
  split <;> rfl

theorem objective_addSlack (i : ℕ) : (p.addSlack i).objective = p.objective := by
  unfold addSlack
  split
  · rfl
  · rfl
  · exact objective_equalize i

theorem m_addSlack (i : ℕ) : (p.addSlack i).m = p.m := by
  unfold addSlack
  split
  · rfl
  · rfl
  · exact m_equalize i

/-- After `k` rounds the first `k` relations are equalities. -/
theorem relations_addSlacks (p : Program K) (k : ℕ) :
    (p.addSlacks k).relations.length = p.relations.length ∧
    ∀ i < k, ∀ r, (p.addSlacks k).relations[i]? = some r → r = .equal := by
  induction k with
  | zero => exact ⟨rfl, by simp⟩
  | succ k ih =>
    rw [addSlacks_succ, relations_addSlack]
    refine ⟨by simp [ih.1], ?_⟩
    intro i hi r hr
    rw [List.getElem?_set] at hr
    grind

theorem m_addSlacks (k : ℕ) : (p.addSlacks k).m = p.m :=
  foldl_eq_of_step m (fun q i => q.m_addSlack i) _ _

theorem shaped_addSlacks (h : p.Shaped) : ∀ k, (p.addSlacks k).Shaped
  | 0 => h
  | k + 1 => by
    rw [addSlacks_succ]
    exact (shaped_addSlacks h k).addSlack k

theorem Shaped.equalities (h : p.Shaped) : p.equalities.Shaped := shaped_addSlacks h.toMaximize p.m

/-! ### Non-negative variables -/

theorem relations_splitVariable (j : ℕ) : (p.splitVariable j).relations = p.relations := by
  unfold splitVariable
  split <;> rfl

theorem objective_splitVariable (j : ℕ) : (p.splitVariable j).objective = p.objective := by
  unfold splitVariable
  split <;> rfl

theorem rhs_splitVariable (j : ℕ) : (p.splitVariable j).rhs = p.rhs := by
  unfold splitVariable
  split <;> rfl

/-- The variable becomes non-negative, and so is its negative part, if it gets one. -/
theorem restrictions_splitVariable (j : ℕ) : ∃ extra, (∀ r ∈ extra, r = .nonNegative) ∧
    (p.splitVariable j).restrictions = p.restrictions.set j .nonNegative ++ extra := by
  unfold splitVariable
  split
  · exact ⟨[.nonNegative], by simp, rfl⟩
  · refine ⟨[], by simp, ?_⟩
    rw [List.append_nil]
    refine (set_eq_self fun r hr => ?_).symm
    cases r <;> simp_all

/-- After `k` rounds the first `k` variables are non-negative, and so are the new ones. -/
theorem restrictions_splitVariables (p : Program K) (k : ℕ) :
    p.restrictions.length ≤ (p.splitVariables k).restrictions.length ∧
    ∀ i, i < k ∨ p.restrictions.length ≤ i → ∀ r, (p.splitVariables k).restrictions[i]? = some r →
      r = .nonNegative := by
  induction k with
  | zero =>
    refine ⟨le_rfl, ?_⟩
    rintro i (hi | hi) r hr
    · omega
    · rw [show p.splitVariables 0 = p from rfl, List.getElem?_eq_none hi] at hr
      cases hr
  | succ k ih =>
    -- a split changes position k alone and puts what is new at the end
    obtain ⟨extra, hnonneg, hextra⟩ := (p.splitVariables k).restrictions_splitVariable k
    rw [splitVariables_succ, hextra]
    refine ⟨ih.1.trans (by simp), ?_⟩
    intro i hi r hr
    rcases Nat.lt_or_ge i (p.splitVariables k).restrictions.length with hlt | hge
    · rw [List.getElem?_append_left (by simpa using hlt), List.getElem?_set] at hr
      grind
    · rw [List.getElem?_append_right (by simpa using hge)] at hr
      exact hnonneg r (List.mem_of_getElem? hr)

theorem shaped_splitVariables (h : p.Shaped) : ∀ k, (p.splitVariables k).Shaped
  | 0 => h
  | k + 1 => by
    rw [splitVariables_succ]
    exact (shaped_splitVariables h k).splitVariable k

/-! ### The standard form -/

theorem Shaped.standardForm (h : p.Shaped) : p.standardForm.Shaped :=
  (shaped_splitVariables h.equalities p.equalities.n).congr rfl

theorem relations_standardForm (p : Program K) :
    p.standardForm.relations = p.equalities.relations :=
  foldl_eq_of_step Program.relations (fun q j => q.relations_splitVariable j) _ _

theorem m_standardForm (p : Program K) : p.standardForm.m = p.m := by
  have hsplit : p.standardForm.m = p.equalities.m :=
    congrArg List.length (foldl_eq_of_step Program.rhs (fun q j => q.rhs_splitVariable j) _ _)
  rw [hsplit, Program.equalities, m_addSlacks, m_toMaximize]

theorem length_relations_standardForm (p : Program K) :
    p.standardForm.relations.length = p.relations.length := by
  rw [relations_standardForm, equalities, (relations_addSlacks _ _).1, relations_toMaximize]

/-- With one relation for each constraint, the standard form keeps to its rules. -/
theorem Shaped.isStandard_standardForm (h : p.Shaped) (hrelations : p.relations.length = p.m) :
    p.standardForm.IsStandard := by
  refine ⟨?_, ?_, ?_⟩
  · have hsplit : p.standardForm.objective = p.equalities.objective :=
      foldl_eq_of_step Program.objective (fun q j => q.objective_splitVariable j) _ _
    have hslack : p.equalities.objective = p.toMaximize.objective :=
      foldl_eq_of_step Program.objective (fun q i => q.objective_addSlack i) _ _
    rw [hsplit, hslack, objective_toMaximize]
  · intro r hr
    rw [relations_standardForm] at hr
    obtain ⟨hlen, hequal⟩ := p.toMaximize.relations_addSlacks p.m
    obtain ⟨i, hi, rfl⟩ := List.mem_iff_getElem.1 hr
    refine hequal i ?_ _ (List.getElem?_eq_getElem hi)
    rwa [Program.equalities, hlen, relations_toMaximize, hrelations] at hi
  · intro r hr
    obtain ⟨i, hi, rfl⟩ := List.mem_iff_getElem.1 hr
    refine (p.equalities.restrictions_splitVariables p.equalities.n).2 i
      ?_ _ (List.getElem?_eq_getElem hi)
    rw [h.equalities.restrictions]
    exact Nat.lt_or_ge i p.equalities.n

end Loops

/-! ### Standard forms of standard forms -/

section Marked
variable {K : Type} {p : Program K}

/-- The program, marked as standard and not as prepared. -/
def marked (p : Program K) : Program K := { p with standard := true, simplex := false }

theorem eq_of_flags {a b : Bool} (hstandard : p.standard = a) (hsimplex : p.simplex = b) :
    { p with standard := a, simplex := b } = p := by
  rw [← hstandard, ← hsimplex]

theorem marked_of_flags (hstandard : p.standard = true) (hsimplex : p.simplex = false) :
    p.marked = p :=
  eq_of_flags hstandard hsimplex

theorem Shaped.marked (h : p.Shaped) : p.marked.Shaped :=
  ⟨⟨h.rows, h.row⟩, h.restrictions, h.relations⟩

theorem IsStandard.marked (h : p.IsStandard) : p.marked.IsStandard :=
  ⟨h.objective, h.relations, h.restrictions⟩

variable [Scalar K]

theorem IsStandard.toMaximize (h : p.IsStandard) : p.toMaximize = p := by
  rw [Program.toMaximize, h.objective]

theorem IsStandard.addSlack (h : p.IsStandard) (i : ℕ) : p.addSlack i = p := by
  unfold Program.addSlack
  cases hr : p.relations[i]? with
  | none => rfl
  | some r =>
    rw [h.relations r (List.mem_of_getElem? hr)]

theorem IsStandard.splitVariable (h : p.IsStandard) (j : ℕ) : p.splitVariable j = p := by
  unfold Program.splitVariable
  cases hr : p.restrictions[j]? with
  | none => rfl
  | some r =>
    rw [h.restrictions r (List.mem_of_getElem? hr)]

/-- A standard form is its own, but for its flags. -/
theorem IsStandard.standardForm (h : p.IsStandard) : p.standardForm = p.marked := by
  have hequalities : p.equalities = p := by
    rw [equalities, h.toMaximize, addSlacks, List.foldl_fixed' h.addSlack]
  rw [Program.standardForm, hequalities, splitVariables, List.foldl_fixed' h.splitVariable,
    Program.marked]

end Marked

end Program

namespace Action
open Program

section Loops
variable {K : Type} [Scalar K] {s : Session K}

/-- A slack variable comes with a coefficient for every constraint, so its
    addition does not fail. -/
theorem addSlack_eq {i : ℕ} (h : i < s.program.relations.length) :
    Action.addSlack i s = .ok () { s with program := s.program.addSlack i } := by
  have hlen : (Scalar.unit s.program.m i : List K).length = (s.program.equalize i).m := by simp
  have hslack :=
    addVariable_ok (s := { s with program := s.program.equalize i }) 0 .nonNegative hlen
  simp only [Action.addSlack, Program.addSlack, bind, EStateM.bind, program,
    List.getElem?_eq_getElem h]
  cases s.program.relations[i] with
  | equal => rfl
  | lessEqual => exact hslack
  | greaterEqual => exact hslack

/-- The negative part of a variable comes with a coefficient for every row of the matrix. -/
theorem splitVariable_eq {j : ℕ} (h : j < s.program.restrictions.length)
    (hrows : s.program.rows.length = s.program.m) :
    Action.splitVariable j s = .ok () { s with program := s.program.splitVariable j } := by
  have hlen : ((s.program.column j).map (- ·)).length = (s.program.restrict j).m := by
    simpa [column, restrict, m] using hrows
  have hnegative :=
    addVariable_ok (s := { s with program := s.program.restrict j })
      (-s.program.cost j) .nonNegative hlen
  simp only [Action.splitVariable, Program.splitVariable, bind, EStateM.bind, program,
    List.getElem?_eq_getElem h]
  cases s.program.restrictions[j] with
  | nonNegative => rfl
  | unrestricted => exact hnegative

/-- The loop over the constraints, whatever else a round looks at. -/
theorem forM_addSlack {slack : ℕ → Action K Unit} (h : s.program.Shaped)
    (hslack : ∀ (s : Session K) (i : ℕ), s.program.Shaped → i < s.program.m →
      slack i s = .ok () { s with program := s.program.addSlack i }) :
    (List.range s.program.m).forM slack { s with program := s.program.toMaximize } =
      .ok () { s with program := s.program.equalities } := by
  refine forM_range_eq (s := { s with program := s.program.toMaximize })
    s.program.toMaximize.addSlacks rfl
    fun k hk => ?_
  rw [addSlacks_succ]
  refine hslack { s with program := s.program.toMaximize.addSlacks k } k
    (shaped_addSlacks h.toMaximize k) ?_
  rwa [m_addSlacks, m_toMaximize]

/-- The loop over the variables. -/
theorem forM_splitVariable {split : ℕ → Action K Unit} (h : s.program.Shaped)
    (hsplit : ∀ (s : Session K) (j : ℕ), s.program.Shaped → j < s.program.n →
      split j s = .ok () { s with program := s.program.splitVariable j }) :
    (List.range s.program.n).forM split s =
      .ok () { s with program := s.program.splitVariables s.program.n } := by
  refine forM_range_eq s.program.splitVariables rfl fun k hk => ?_
  rw [splitVariables_succ]
  have hshaped := shaped_splitVariables h k
  refine hsplit { s with program := s.program.splitVariables k } k hshaped ?_
  rw [← hshaped.restrictions]
  rw [← h.restrictions] at hk
  exact hk.trans_le (s.program.restrictions_splitVariables k).1

end Loops

/-- The artificial variables come with a coefficient for every constraint too. -/
theorem addArtificial_eq {K : Type} [Scalar K] (s : Session K) (k : ℕ) :
    addArtificial k { s with program := s.program.artificials k } =
      .ok () { s with program := s.program.artificials (k + 1) } := by
  have hlen : (Scalar.unit s.program.m k : List K).length = (s.program.artificials k).m := by simp
  have hadd :=
    addVariable_ok (s := { s with program := s.program.artificials k }) 0 .nonNegative hlen
  rw [artificials_succ, ← hadd, ← m_artificials s.program k]
  rfl

theorem forM_addArtificial {K : Type} [Scalar K] (s : Session K) :
    (List.range s.program.m).forM addArtificial s =
      .ok () { s with program := s.program.addArtificials } :=
  forM_range_eq s.program.artificials rfl fun k _ => addArtificial_eq s k

/-- The preparation of a program in standard form does not fail. -/
theorem auxiliary_eq {K : Type} [Scalar K] (absolute : Bool) :
    (do
      change fun p => p.normalizeSigns.auxiliaryObjective absolute
      let q ← program
      (List.range q.m).forM addArtificial
      change fun p => { p with simplex := true } : Action K Unit) =
        change (Program.auxiliary absolute) := by
  funext s
  have hloop := forM_addArtificial
    { s with program := s.program.normalizeSigns.auxiliaryObjective absolute }
  simp only [bind, EStateM.bind, change, program, hloop]
  rfl

theorem prepare_eq_auxiliary {K : Type} [Scalar K] (absolute : Bool) :
    (Action.prepare absolute : Action K Unit) = (do
      let p ← program
      if p.simplex then return
      standardize
      change (Program.auxiliary absolute)) := by
  rw [Action.prepare]
  simp only [auxiliary_eq]

/-- A program whose parts fit together is brought into standard form without a fault. -/
theorem standardize_eq_of_shaped {K : Type} [Scalar K] {s : Session K} (h : s.program.Shaped)
    (hs : s.program.standard = false) :
    Action.standardize s = .ok () { s with program := s.program.standardForm } := by
  have hslacks := forM_addSlack h fun _ _ hshaped hi => addSlack_eq (hi.trans_le hshaped.relations)
  have hsplit := forM_splitVariable (s := { s with program := s.program.equalities }) h.equalities
    fun _ _ hshaped hj => splitVariable_eq (hshaped.restrictions.symm ▸ hj) hshaped.rows
  simp only [Action.standardize, bind, EStateM.bind, program, setProgram, change, hs,
    Bool.false_eq_true, if_false, hslacks, hsplit]
  rfl

end Action

end Simplex
