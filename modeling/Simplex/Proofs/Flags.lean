import Simplex.Proofs.Invariants
/-! The flags of a program save work and nothing else. Where they are lowered, though they might be
    set, the standard form is made again: on a program that has it already, the loops over
    constraints and variables change nothing. So the program comes to the same standard form, and a
    solution, which begins with it, runs the same way. -/

namespace Simplex

section Lowered
variable {K : Type}

/-- The program with both flags lowered. A program that is read from its text has them so. -/
def Program.unmarked (p : Program K) : Program K := { p with standard := false, simplex := false }

/-- The session with the flags of its program lowered. -/
def Session.unmarked (s : Session K) : Session K := { s with program := s.program.unmarked }

namespace Program
variable {p : Program K}

theorem Shaped.unmarked (h : p.Shaped) : p.unmarked.Shaped := h.congr rfl

theorem IsStandard.unmarked (h : p.IsStandard) : p.unmarked.IsStandard :=
  ⟨h.objective, h.relations, h.restrictions⟩

/-- A program that is not marked as standard is not marked as prepared either. -/
theorem Truthful.unmarked_eq (h : p.Truthful) (hs : p.standard = false) : p.unmarked = p := by
  have hsimplex : p.simplex = false := by
    rw [← Bool.not_eq_true]
    exact fun hprepared => Bool.false_ne_true (hs.symm.trans (h.prepared hprepared))
  exact eq_of_flags hs hsimplex

/-- The loops change nothing in a program that is marked as standard. -/
theorem Truthful.standardForm_unmarked [Scalar K] (h : p.Truthful) (hs : p.standard = true) :
    p.unmarked.standardForm = p.marked := by
  obtain ⟨hobjective, hrelations, hrestrictions⟩ := h.truthful hs
  have hstandard : p.IsStandard := ⟨hobjective, hrelations, hrestrictions⟩
  exact hstandard.unmarked.standardForm

end Program

end Lowered

namespace Action
variable {K : Type} [Scalar K] {s : Session K}

theorem standardize_of_standard (hs : s.program.standard = true) :
    Action.standardize s = .ok () s := by
  simp only [Action.standardize, bind, EStateM.bind, program, hs, if_true]
  rfl

/-- A standard form that has lost its flags comes to itself. That it is prepared is forgotten. -/
theorem standardize_unmarked_of_standard (h : s.program.Truthful) (hs : s.program.standard = true) :
    Action.standardize s.unmarked =
      .ok () { s with program := { s.program with simplex := false } } := by
  have hform : s.program.unmarked.standardForm = { s.program with simplex := false } := by
    rw [h.standardForm_unmarked hs, Program.marked, ← hs]
  rw [standardize_eq_of_shaped (s := s.unmarked) h.shaped.unmarked rfl, ← hform]
  rfl

/-- With and without its flags a program comes to one standard form. -/
theorem standardize_unmarked (h : s.program.Truthful) :
    ∃ s', Action.standardize s = .ok () s' ∧ s'.program.Truthful ∧ s'.program.standard = true ∧
      Action.standardize s.unmarked =
        .ok () { s' with program := { s'.program with simplex := false } } ∧
      (s.program.standard = false → s'.program.simplex = false) := by
  cases hs : s.program.standard with
  | true =>
    exact ⟨s, standardize_of_standard hs, h, hs, standardize_unmarked_of_standard h hs, nofun⟩
  | false =>
    -- no standard form, so there was no flag to lower
    have hsame : s.unmarked = s := by rw [Session.unmarked, h.unmarked_eq hs]
    have heq := standardize_eq_of_shaped h.shaped hs
    refine ⟨_, heq, h.standardForm, rfl, ?_, fun _ => rfl⟩
    rw [hsame, heq]
    rfl

/-- Whatever the flags say, a program is solved in the same way. -/
theorem solve_unmarked (h : s.program.Truthful) (limit : ℕ) :
    Action.solve limit s.unmarked = Action.solve limit s := by
  obtain ⟨s', hs', -, -, hunmarked, -⟩ := standardize_unmarked h
  simp only [Action.solve, bind, EStateM.bind, hs', hunmarked]
  rfl

end Action

namespace Session

/-- In every history in which no constraint is left without its right-hand side the flags
    only save work. With its flags lowered the program comes to the same standard form,
    except that it is marked as prepared no more; a standard form that has lost its flags
    comes to itself; and the program is solved with the same outcome or the same failure,
    by the same steps, and to the same end. -/
theorem flags_run {p : Program Float} (hp : p.Begins) (limit : ℕ) {ops : List (Operation Float)}
    (hops : ∀ op ∈ ops, op.Unmodified)
    (hread : ∀ x ∈ trace limit ops (start p), x.1.ValuesRead limit x.2) {s : Session Float}
    (hs : run limit ops (start p) = s) :
    (∃ s' t', Action.standardize s = .ok () s' ∧ Action.standardize s.unmarked = .ok () t' ∧
      t' = { s' with program := { s'.program with simplex := t'.program.simplex } } ∧
      (s.program.standard = false → t' = s') ∧ Action.standardize s'.unmarked = .ok () t') ∧
    ∀ limit, Action.solve limit s.unmarked = Action.solve limit s := by
  have hI : s.Everywhere Program.Truthful :=
    hs ▸ everywhere_run Program.invariant_truthful (everywhere_start hp.truthful) hops (.inr hread)
  obtain ⟨s', hstandardize, htruthful, hstandard, hunmarked, hsimplex⟩ :=
    Action.standardize_unmarked hI.1
  refine ⟨⟨s', _, hstandardize, hunmarked, rfl, fun hs => ?_, ?_⟩, Action.solve_unmarked hI.1⟩
  · rw [← hsimplex hs]
  · exact Action.standardize_unmarked_of_standard htruthful hstandard

/-- A free variable and a lower bound are brought into standard form, prepared for the first
    phase and pivoted on. -/
def pivoted : List (Operation Float) :=
  [.addVariable (.ok 1) (.ok []) (.ok .unrestricted),
    .addConstraint (.ok .greaterEqual) (.ok 3) (.ok [1]), .prepare true, .pivot 0 2]

/-- Both flags are set on the tableau, and without them it is solved in the same way. -/
theorem flags_run_pivoted :
    (run 0 pivoted (start (.empty .minimize 0))).program.standard = true ∧
    (run 0 pivoted (start (.empty .minimize 0))).program.simplex = true ∧
    ∀ limit, Action.solve limit (run 0 pivoted (start (.empty .minimize 0))).unmarked =
      Action.solve limit (run 0 pivoted (start (.empty .minimize 0))) := by
  have hops : ∀ op ∈ pivoted, op.Unmodified := by simp [pivoted, Operation.Unmodified]
  have hread : ∀ x ∈ trace 0 pivoted (start (.empty .minimize 0)), x.1.ValuesRead 0 x.2 := by
    simp [pivoted, trace, Operation.ValuesRead]
  exact ⟨by decide +kernel, by decide +kernel,
    (flags_run (.inl ⟨.ok .minimize, .ok 0, rfl⟩) 0 hops hread rfl).2⟩

end Session

end Simplex
