import Simplex.Proofs.Isolation.Matrix
/-! Isolation by a copy. Before the block every part of the program is copied, and the matrix is
    laid out by the counts of constraints and variables; after the block the parts are overwritten
    one after the other, whatever the block has left of them, and the matrix is laid out again. Both
    layouts can fail. Where the rows of the program fit its counts neither does, and the program is
    back whole, for any action inside. -/

namespace Simplex

namespace Copied
variable {K α : Type}

/-! ### Layout -/

/-- The first `m` windows of width `n`. -/
def windows (n : ℕ) : ℕ → List K → List (List K)
  | 0, _ => []
  | m + 1, xs => xs.take n :: windows n m (xs.drop n)

/-- Numbers laid out as `m` rows of length `n`. There must be as many of them as the rows hold. -/
def layout (m n : ℕ) (xs : List K) : Except ArgumentFault (List (List K)) :=
  if xs.length = m * n then .ok (windows n m xs) else .error .malformed

theorem windows_flatten {n : ℕ} {rows : List (List K)} (h : ∀ row ∈ rows, row.length = n) :
    windows n rows.length rows.flatten = rows := by
  induction rows with
  | nil => rfl
  | cons row rows ih =>
    obtain ⟨hrow, hrows⟩ := List.forall_mem_cons.1 h
    rw [List.length_cons, List.flatten_cons, windows, List.take_left' hrow, List.drop_left' hrow,
      ih hrows]

theorem length_flatten_rows {n : ℕ} {rows : List (List K)} (h : ∀ row ∈ rows, row.length = n) :
    rows.flatten.length = rows.length * n := by
  rw [List.length_flatten, List.map_congr_left h, List.map_const', List.sum_replicate_nat]

/-- Rows that fit the counts are laid out as they are. -/
theorem layout_flatten {p : Program K} (hp : p.Rectangular) :
    layout p.m p.n p.rows.flatten = .ok p.rows := by
  have hlength := length_flatten_rows hp.row
  have hwindows := windows_flatten hp.row
  rw [hp.rows] at hlength hwindows
  rw [layout, if_pos hlength, hwindows]

/-! ### Copies -/

/-- A copy of the program, part by part. -/
def take : Action K (Program K) := do
  let p ← Action.program
  let rows ← Action.argument (layout p.m p.n p.rows.flatten)
  return {
    objective := p.objective
    costs := p.costs
    constant := p.constant
    restrictions := p.restrictions
    relations := p.relations
    rhs := p.rhs
    rows
    standard := p.standard
    simplex := p.simplex
    tolerance := p.tolerance }

/-- Overwrites the program with a copy, part by part. A matrix that is not laid out leaves the rows,
    the flags and the tolerance as they are. -/
def putBack (d : Program K) : Action K Unit := do
  Action.change fun p => { p with objective := d.objective }
  Action.change fun p => { p with costs := d.costs }
  Action.change fun p => { p with constant := d.constant }
  Action.change fun p => { p with restrictions := d.restrictions }
  Action.change fun p => { p with relations := d.relations }
  Action.change fun p => { p with rhs := d.rhs }
  let p ← Action.program
  let rows ← Action.argument (layout p.m p.n d.rows.flatten)
  Action.change fun p => { p with rows := rows }
  Action.change fun p => { p with standard := d.standard }
  Action.change fun p => { p with simplex := d.simplex }
  Action.change fun p => { p with tolerance := d.tolerance }

/-- Runs an action between a copy and its return, also when the action fails. -/
def isolated (act : Action K α) : Action K α := do
  let d ← take
  try act finally putBack d

theorem take_eq {s : Session K} (hs : s.program.Rectangular) : take s = .ok s.program s := by
  change EStateM.bind (Action.argument (layout s.program.m s.program.n s.program.rows.flatten))
    _ s = _
  rw [layout_flatten hs]
  rfl

/-- Whatever program there was, it is overwritten whole. -/
theorem putBack_eq {d : Program K} (hd : d.Rectangular) (s : Session K) :
    putBack d s = Action.setProgram d s := by
  change EStateM.bind (Action.argument (layout d.m d.n d.rows.flatten)) _
    { s with
      program := { s.program with
        objective := d.objective, costs := d.costs, constant := d.constant
        restrictions := d.restrictions, relations := d.relations, rhs := d.rhs } } = _
  rw [layout_flatten hd]
  rfl

theorem isolated_eq (act : Action K α) {s : Session K} (hs : s.program.Rectangular) :
    isolated act s = Action.isolated act s := by
  unfold isolated Action.isolated
  simp only [bind, EStateM.bind, take_eq hs, tryFinally, MonadFinally.tryFinally', Functor.map,
    EStateM.map]
  cases act s <;> simp [putBack_eq hs, Action.setProgram]

/-! ### Operations with copies -/

/-- Keeps a copy of the program under a name. -/
def takeSnapshot (name : String) : Action K Unit := do
  let d ← take
  fun s => .ok () { s with snapshots := (name, d) :: s.snapshots }

/-- Overwrites the program with the copy under a name. -/
def restore (name : String) : Action K Unit := do
  putBack (← Action.snapshot name)

theorem takeSnapshot_eq {s : Session K} (hs : s.program.Rectangular) (name : String) :
    takeSnapshot name s = Action.takeSnapshot name s := by
  change EStateM.bind take _ s = _
  unfold EStateM.bind
  rw [take_eq hs]
  rfl

theorem restore_eq {s : Session K} (hs : ∀ x ∈ s.snapshots, x.2.Rectangular) (name : String) :
    restore name s = Action.restore name s := by
  change EStateM.bind (Action.snapshot name) _ s = EStateM.bind (Action.snapshot name) _ s
  unfold EStateM.bind
  rcases Action.snapshot_cases name s with ⟨x, hx, hfound⟩ | hfail
  · rw [hfound]
    exact putBack_eq (hs x hx) s
  · rw [hfail]

variable [Scalar K]

mutual

/-- Performs an operation. Every snapshot, every return to one and every block goes by copies. -/
def perform (limit : ℕ) : Operation K → Action K (Option Outcome)
  | .snapshot name => do
    takeSnapshot name
    return none
  | .restore name => do
    restore name
    return none
  | .isolated body => isolated (performAll limit body)
  | op => op.perform limit

def performAll (limit : ℕ) : List (Operation K) → Action K (Option Outcome)
  | [] => return none
  | op :: ops => do
    let _ ← perform limit op
    performAll limit ops

end

/-! The matrix fits its counts in every history, so no copy fails. -/

mutual

theorem perform_eq {limit : ℕ} :
    ∀ (op : Operation K) {s : Session K}, s.Everywhere Program.Rectangular →
    perform limit op s = op.perform limit s
  | .snapshot name, s, hs => by
    rw [perform, Operation.perform]
    simp only [bind, EStateM.bind, takeSnapshot_eq hs.1]
  | .restore name, s, hs => by
    rw [perform, Operation.perform]
    simp only [bind, EStateM.bind, restore_eq hs.2]
  | .isolated body, s, hs => by
    rw [perform, isolated_eq _ hs.1, Operation.perform, Action.isolated, Action.isolated,
      performAll_eq body hs]
  | .addVariable .., _, _ | .addConstraint .., _, _ | .setConstant _, _, _ | .standardize, _, _
  | .prepare _, _, _ | .pivot .., _, _ | .solve, _, _ | .solveFrom _, _, _ | .fork .., _, _ => by
    rw [perform]
    all_goals nofun

theorem performAll_eq {limit : ℕ} : ∀ (ops : List (Operation K)) {s : Session K},
    s.Everywhere Program.Rectangular → performAll limit ops s = Operation.performAll limit ops s
  | [], _, _ => rfl
  | op :: ops, s, hs => by
    have hfits := op.fits_perform limit s hs (Nat.zero_le _)
    change EStateM.bind (perform limit op) _ s = EStateM.bind (op.perform limit) _ s
    rw [EStateM.bind, EStateM.bind, perform_eq op hs]
    cases hperform : op.perform limit s with
    | error e s' => rfl
    | ok a s' => exact performAll_eq ops (hfits.of_ok hperform).1

end

end Copied

end Simplex
