import Mathlib.Data.Nat.Notation
import Mathlib.Logic.Basic
import Simplex.Codec.Decode
/-! Additions. With arguments that are read and a column or a row of the right length an addition
    comes to the program with one more variable or constraint and leaves the rest of the session
    alone. So a draft whose rows are as long as it has unknowns is replayed, one addition after the
    other, without a failure, and what comes of it is the program of the draft. -/

namespace Simplex

namespace Program
variable {K : Type}

/-- Lowering the flags twice is lowering them once. -/
theorem appendVariable_lowerFlags (c : K) (column : List K) (r : Restriction) (p : Program K) :
    (p.lowerFlags (r == .nonNegative)).appendVariable c column r = p.appendVariable c column r := by
  simp [appendVariable, lowerFlags]

/-- Variables added to a program without constraints whose flags are lowered. -/
theorem foldl_appendVariable (xs : List (K × Restriction)) {p : Program K} (hrows : p.rows = [])
    (hstandard : p.standard = false) (hsimplex : p.simplex = false) :
    xs.foldl (fun p (c, r) => appendVariable c [] r p) p =
      { p with
        costs := p.costs ++ xs.map Prod.fst
        restrictions := p.restrictions ++ xs.map Prod.snd } := by
  induction xs generalizing p with
  | nil => simp
  | cons x xs ih =>
    rw [List.foldl_cons, ih] <;> simp [appendVariable, lowerFlags, hrows, hstandard, hsimplex]

/-- Constraints added to a program whose flags are lowered. -/
theorem foldl_appendConstraint (xs : List (Relation × K × List K)) {p : Program K}
    (hstandard : p.standard = false) (hsimplex : p.simplex = false) :
    xs.foldl (fun p (relation, b, row) => appendConstraint relation b row p) p =
      { p with
        relations := p.relations ++ xs.map fun x => x.1
        rhs := p.rhs ++ xs.map fun x => x.2.1
        rows := p.rows ++ xs.map fun x => x.2.2 } := by
  induction xs generalizing p with
  | nil => simp
  | cons x xs ih =>
    rw [List.foldl_cons, ih] <;>
      simp [appendConstraint, appendRow, appendRelation, lowerFlags, hstandard, hsimplex]

end Program

namespace Action
variable {K : Type} {s : Session K}

theorem addVariable_ok (c : K) {column : List K} (r : Restriction)
    (h : column.length = s.program.m) :
    addVariable (.ok c) (.ok column) (.ok r) s =
      .ok () { s with program := s.program.appendVariable c column r } := by
  rw [← Program.appendVariable_lowerFlags]
  simp only [addVariable, argument, pure_bind]
  change (ite (column.length ≠ s.program.m) _ _ : Action K Unit) s = _
  rw [if_neg (not_not.2 h)]
  rfl

theorem addConstraint_ok (r : Relation) (b : K) {row : List K} (h : row.length = s.program.n) :
    addConstraint (.ok r) (.ok b) (.ok row) s =
      .ok () { s with program := s.program.appendConstraint r b row } := by
  simp only [addConstraint, argument, pure_bind]
  change (ite (row.length ≠ s.program.n) _ _ : Action K Unit) s = _
  rw [if_neg (not_not.2 h)]
  rfl

/-! ### Additions that fail -/

/-- The number of a variable is read when the flags are lowered. -/
theorem addVariable_unread (f : ArgumentFault) {column : List K} (r : Restriction)
    (h : column.length = s.program.m) :
    addVariable (.error f) (.ok column) (.ok r) s =
      .error (.argument f) { s with program := s.program.lowerFlags (r == .nonNegative) } := by
  simp only [addVariable, argument, pure_bind]
  change (ite (column.length ≠ s.program.m) _ _ : Action K Unit) s = _
  rw [if_neg (not_not.2 h)]
  rfl

theorem addVariable_misfit (c : Except ArgumentFault K) {column : List K} (r : Restriction)
    (h : column.length ≠ s.program.m) : addVariable c (.ok column) (.ok r) s =
      .error (.size (.column column.length s.program.m)) s := by
  simp only [addVariable, argument, pure_bind]
  change (ite (column.length ≠ s.program.m) _ _ : Action K Unit) s = _
  rw [if_pos h]
  rfl

/-- The right-hand side of a constraint is read when its relation is there. -/
theorem addConstraint_unread (r : Relation) (f : ArgumentFault) {row : List K}
    (h : row.length = s.program.n) :
    addConstraint (.ok r) (.error f) (.ok row) s =
      .error (.argument f) { s with program := s.program.appendRelation r } := by
  simp only [addConstraint, argument, pure_bind]
  change (ite (row.length ≠ s.program.n) _ _ : Action K Unit) s = _
  rw [if_neg (not_not.2 h)]
  rfl

theorem addConstraint_misfit (r : Relation) (b : Except ArgumentFault K) {row : List K}
    (h : row.length ≠ s.program.n) : addConstraint (.ok r) b (.ok row) s =
      .error (.size (.row row.length s.program.n)) s := by
  simp only [addConstraint, argument, pure_bind]
  change (ite (row.length ≠ s.program.n) _ _ : Action K Unit) s = _
  rw [if_pos h]
  rfl

/-! ### Additions that succeed, one after the other -/

/-- Actions that each change the program only, one after the other. -/
theorem forM_ok {α : Type} {act : α → Action K Unit} {f : Program K → α → Program K} {xs : List α}
    (I : Program K → Prop) (hact : ∀ x ∈ xs, ∀ s : Session K, I s.program →
      act x s = .ok () { s with program := f s.program x } ∧ I (f s.program x)) (hs : I s.program) :
    xs.forM act s = .ok () { s with program := xs.foldl f s.program } := by
  induction xs generalizing s with
  | nil => rfl
  | cons x xs ih =>
    obtain ⟨hx, hI⟩ := hact x List.mem_cons_self s hs
    change EStateM.bind _ _ _ = _
    rw [EStateM.bind, hx]
    exact ih (fun y hy => hact y (List.mem_cons_of_mem _ hy)) hI

theorem forM_addVariable (xs : List (K × Restriction)) (h : s.program.m = 0) :
    (xs.forM fun (c, r) => addVariable (.ok c) (.ok []) (.ok r) : Action K Unit) s =
      .ok () { s with
        program := xs.foldl (fun p (c, r) => Program.appendVariable c [] r p) s.program } :=
  forM_ok (fun p => p.m = 0) (fun _ _ _ hm => ⟨addVariable_ok _ _ hm.symm, hm⟩) h

theorem forM_addConstraint {xs : List (Relation × K × List K)} {n : ℕ} (h : s.program.n = n)
    (hrows : ∀ x ∈ xs, x.2.2.length = n) :
    (xs.forM fun (relation, b, row) =>
      addConstraint (.ok relation) (.ok b) (.ok row) : Action K Unit) s =
      .ok () { s with
        program := xs.foldl
          (fun p (relation, b, row) => Program.appendConstraint relation b row p) s.program } :=
  forM_ok (fun p => p.n = n)
    (fun x hx _ hn => ⟨addConstraint_ok _ _ ((hrows x hx).trans hn.symm), hn⟩) h

end Action

namespace Draft
variable {K : Type} [Scalar K]

/-- The draft told to a session: its variables, its constraints and its constant. -/
def replay (d : Draft K) : Action K Unit := do
  d.unknowns.forM fun (c, r) => Action.addVariable (.ok c) (.ok []) (.ok r)
  d.constraints.forM fun (relation, b, row) => Action.addConstraint (.ok relation) (.ok b) (.ok row)
  Action.setConstant (.ok d.constant)

/-- The program of a draft in full. -/
theorem program_eq (d : Draft K) (tolerance : K) :
    d.program tolerance =
      { objective := d.objective
        costs := d.unknowns.map Prod.fst
        constant := d.constant
        restrictions := d.unknowns.map Prod.snd
        relations := d.constraints.map fun c => c.1
        rhs := d.constraints.map fun c => c.2.1
        rows := d.constraints.map fun c => c.2.2
        standard := false
        simplex := false
        tolerance } := by
  rw [program, Program.foldl_appendVariable d.unknowns rfl rfl rfl,
    Program.foldl_appendConstraint d.constraints rfl rfl]
  simp [Program.empty]

/-- A draft whose rows fit its unknowns is replayed without a failure. -/
theorem replay_ok {d : Draft K} (tolerance : K)
    (h : ∀ c ∈ d.constraints, c.2.2.length = d.unknowns.length) :
    d.replay (Session.start (Program.empty d.objective tolerance)) =
      .ok () (Session.start (d.program tolerance)) := by
  change EStateM.bind _ _ _ = _
  rw [EStateM.bind, Action.forM_addVariable d.unknowns rfl]
  change EStateM.bind _ _ _ = _
  rw [EStateM.bind, Action.forM_addConstraint ?_ h]
  · rfl
  · change (d.unknowns.foldl _ (Program.empty d.objective tolerance)).n = _
    rw [Program.foldl_appendVariable d.unknowns rfl rfl rfl]
    simp [Program.n, Program.empty]

end Draft

end Simplex
