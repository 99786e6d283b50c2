import Simplex.Operation
import Mathlib.Data.Int.Notation
import Mathlib.Data.Nat.Notation
/-! What an operation depends on. Apart from snapshots, an operation looks at the program under work
    and at nothing else of the session: from two sessions with one program it gives the same answer,
    or fails in the same way, and does the same to both. One rule for each way of putting actions
    together carries this from the parts to the whole. -/

namespace Simplex

variable {K α β : Type}

namespace Action

/-- What an action gives back, or what it fails with. -/
def answer (act : Action K α) (s : Session K) : Except Fault α :=
  match act s with
  | .ok a _ => .ok a
  | .error e _ => .error e

theorem answer_congr {act act' : Action K α} {s : Session K} (h : act s = act' s) :
    act.answer s = act'.answer s := by
  rw [answer, h, answer]

theorem after_congr {act act' : Action K α} {s : Session K} (h : act s = act' s) :
    act.after s = act'.after s := by
  rw [Action.after, h, Action.after]

theorem answer_isolated (act : Action K α) (s : Session K) :
    (isolated act).answer s = act.answer s := by
  unfold answer isolated
  cases act s <;> rfl

theorem snapshots_after_isolated (act : Action K α) (s : Session K) :
    ((isolated act).after s).snapshots = (act.after s).snapshots := by
  unfold Action.after isolated
  cases act s <;> rfl

end Action

/-- Two ends of an action: the same answer or the same failure, in related sessions. -/
inductive SameEnd (R : Session K → Session K → Prop) :
    EStateM.Result Fault (Session K) α → EStateM.Result Fault (Session K) α → Prop
  | ok {a : α} {s t : Session K} : R s t → SameEnd R (.ok a s) (.ok a t)
  | error {e : Fault} {s t : Session K} : R s t → SameEnd R (.error e s) (.error e t)

theorem SameEnd.mono {R R' : Session K → Session K → Prop} (h : ∀ {s t}, R s t → R' s t) :
    ∀ {x y : EStateM.Result Fault (Session K) α}, SameEnd R x y → SameEnd R' x y
  | _, _, .ok hR => .ok (h hR)
  | _, _, .error hR => .error (h hR)

theorem SameEnd.answer_after {R : Session K → Session K → Prop} {act : Action K α} {s t : Session K}
    (h : SameEnd R (act s) (act t)) :
    act.answer s = act.answer t ∧ R (act.after s) (act.after t) := by
  unfold Action.answer Action.after
  cases hs : act s <;> cases ht : act t <;> rw [hs, ht] at h <;> cases h
  case ok.ok.ok hR => exact ⟨rfl, hR⟩
  case error.error.error hR => exact ⟨rfl, hR⟩

/-- A relation of sessions that have one program, and that stay related when the same is done to the
    program, to the journal and to the latest optimum of both. -/
structure Session.Parallel (R : Session K → Session K → Prop) : Prop where
  program : ∀ {s t}, R s t → s.program = t.program
  overwritten : ∀ {s t}, R s t → ∀ p, R { s with program := p } { t with program := p }
  noted : ∀ {s t}, R s t → ∀ e,
    R { s with journal := e :: s.journal } { t with journal := e :: t.journal }
  remembered : ∀ {s t}, R s t → ∀ is, R { s with lastNonbasic := is } { t with lastNonbasic := is }

namespace Action

/-- Run from two related sessions, the action ends alike. -/
def Follows (R : Session K → Session K → Prop) (act : Action K α) : Prop :=
  ∀ ⦃s t⦄, R s t → SameEnd R (act s) (act t)

namespace Follows
variable {R : Session K → Session K → Prop} {act act' : Action K α} {f : α → Action K β}

theorem pure (a : α) : Follows R (pure a : Action K α) := fun _ _ h => .ok h

theorem throw (e : Fault) : Follows R (throw e : Action K α) := fun _ _ h => .error h

/-- What comes after a failure is not done. -/
theorem fail (e : Fault) : Follows R ((MonadExcept.throw e : Action K α) >>= f) :=
  fun _ _ h => .error h

theorem bind (h : Follows R act) (hf : ∀ a, Follows R (f a)) : Follows R (act >>= f) := by
  intro s t hst
  change SameEnd R (EStateM.bind act f s) (EStateM.bind act f t)
  unfold EStateM.bind
  have hend := h hst
  -- the two runs end alike, so the mixed cases contradict `hend`
  cases hs : act s <;> cases ht : act t <;> rw [hs, ht] at hend <;> cases hend
  case ok.ok.ok hst' => exact hf _ hst'
  case error.error.error hst' => exact .error hst'

theorem ite {c : Prop} [Decidable c] (h : Follows R act) (h' : Follows R act') :
    Follows R (if c then act else act') := by
  split
  · exact h
  · exact h'

theorem forM {γ : Type} {f : γ → Action K Unit} (h : ∀ x, Follows R (f x)) :
    ∀ xs : List γ, Follows R (xs.forM f)
  | [] => pure ()
  | x :: xs => bind (h x) fun _ => forM h xs

theorem argument (x : Except ArgumentFault α) : Follows R (Action.argument x) := by
  cases x with
  | ok a => exact pure a
  | error e => exact throw _

theorem basis (x : Except BasisFault α) : Follows R (Action.basis x) := by
  cases x with
  | ok a => exact pure a
  | error e => exact throw _

variable (hR : Session.Parallel R)
include hR

theorem program : Follows R (Action.program (K := K)) := by
  intro s t hst
  change SameEnd R (.ok s.program s) (.ok t.program t)
  rw [hR.program hst]
  exact .ok hst

theorem setProgram (p : Program K) : Follows R (Action.setProgram p) :=
  fun _ _ hst => .ok (hR.overwritten hst p)

theorem change (g : Program K → Program K) : Follows R (Action.change g) := by
  intro s t hst
  change SameEnd R (.ok () { s with program := g s.program })
    (.ok () { t with program := g t.program })
  rw [hR.program hst]
  exact .ok (hR.overwritten hst _)

theorem note (e : Event K) : Follows R (Action.note e) := fun _ _ hst => .ok (hR.noted hst e)

/-- The program is put back in both runs. -/
theorem isolated (h : Follows R act) : Follows R (Action.isolated act) := by
  intro s t hst
  unfold Action.isolated
  have hprogram := hR.program hst
  have hend := h hst
  cases hs : act s <;> cases ht : act t <;> rw [hs, ht] at hend <;> cases hend
  case ok.ok.ok hst' => exact hprogram ▸ .ok (hR.overwritten hst' s.program)
  case error.error.error hst' => exact hprogram ▸ .error (hR.overwritten hst' s.program)

theorem remember (outcome : Outcome) : Follows R (Action.remember (K := K) outcome) := by
  cases outcome with
  | optimal nonbasic => exact fun _ _ hst => .ok (hR.remembered hst nonbasic)
  | unbounded => exact fun _ _ hst => .ok hst
  | infeasible => exact fun _ _ hst => .ok hst

theorem restore {name : String} (h : Follows R (Action.snapshot name)) :
    Follows R (Action.restore name) :=
  h.bind fun _ => setProgram hR _

theorem fork {name : String} (changes : Changes K) (h : Follows R (Action.snapshot name)) :
    Follows R (Action.fork name changes) :=
  h.bind fun _ => (argument _).bind fun _ => setProgram hR _

/-! ### Additions and standard form -/

theorem addVariable (coefficient : Except ArgumentFault K) (column : Except ArgumentFault (List K))
    (restriction : Except ArgumentFault Restriction) :
    Follows R (Action.addVariable coefficient column restriction) := by
  refine (argument _).bind fun kind => (argument _).bind fun w => (program hR).bind fun p => ?_
  exact ite (fail _) ((change hR _).bind fun _ => (argument _).bind fun _ => change hR _)

theorem addConstraint (relation : Except ArgumentFault Relation) (value : Except ArgumentFault K)
    (row : Except ArgumentFault (List K)) :
    Follows R (Action.addConstraint relation value row) := by
  refine (argument _).bind fun r => (argument _).bind fun w => (program hR).bind fun p => ?_
  exact ite (fail _) ((change hR _).bind fun _ => (argument _).bind fun _ => change hR _)

theorem setConstant (value : Except ArgumentFault K) : Follows R (Action.setConstant value) :=
  (argument _).bind fun _ => change hR _

variable [Scalar K]

theorem addSlack (i : ℕ) : Follows R (Action.addSlack (K := K) i) := by
  refine (program hR).bind fun p => ?_
  split
  · exact throw _
  · exact pure ()
  · exact (change hR _).bind fun _ => addVariable hR _ _ _

theorem splitVariable (j : ℕ) : Follows R (Action.splitVariable (K := K) j) := by
  refine (program hR).bind fun p => ?_
  split
  · exact throw _
  · exact pure ()
  · exact (change hR _).bind fun _ => addVariable hR _ _ _

theorem addArtificial (i : ℕ) : Follows R (Action.addArtificial (K := K) i) :=
  (program hR).bind fun _ => addVariable hR _ _ _

theorem standardize : Follows R (Action.standardize (K := K)) := by
  refine (program hR).bind fun p => ite (pure ()) ?_
  refine (setProgram hR _).bind fun _ => (forM (addSlack hR) _).bind fun _ =>
    (program hR).bind fun q => ?_
  exact (forM (splitVariable hR) _).bind fun _ => change hR _

theorem prepare (absolute : Bool) : Follows R (Action.prepare (K := K) absolute) :=
  (program hR).bind fun _ => ite (pure ()) <| (standardize hR).bind fun _ =>
    (change hR _).bind fun _ =>
    (program hR).bind fun _ => (forM (addArtificial hR) _).bind fun _ => change hR _

/-! ### The search -/

theorem pivot (row column : ℤ) : Follows R (Action.pivot (K := K) row column) := by
  refine (program hR).bind fun p => ?_
  split
  · exact throw _
  · exact throw _
  · exact (note hR _).bind fun _ => setProgram hR _

theorem search : ∀ (limit : ℕ) (nonbasic : List ℤ),
    Follows R (Action.search (K := K) limit nonbasic)
  | 0, _ => throw _
  | limit + 1, nonbasic => by
    refine (program hR).bind fun p => (basis _).bind fun move => ?_
    cases move with
    | stop outcome => exact pure _
    | exchange row entering leaving =>
      refine (pivot hR _ _).bind fun _ => (program hR).bind fun q => (note hR _).bind fun _ => ?_
      exact search limit _

theorem solveFrom (limit : ℕ) (nonbasic : List ℤ) :
    Follows R (Action.solveFrom (K := K) limit nonbasic) :=
  (program hR).bind fun _ => ite (fail _) (search hR limit _)

/-! ### The two phases -/

theorem firstPhase (limit : ℕ) (absolute : Bool) :
    Follows R (Action.firstPhase (K := K) limit absolute) := by
  refine (program hR).bind fun p => (prepare hR absolute).bind fun _ =>
    (solveFrom hR limit _).bind fun o => ?_
  cases o with
  | unbounded => exact pure _
  | infeasible => exact pure _
  | optimal nonbasic =>
    refine (program hR).bind fun q => (note hR _).bind fun _ =>
      ite (pure _) ((basis _).bind fun j? => ?_)
    cases j? with
    | none => exact pure _
    | some j => exact (note hR _).bind fun _ => pure _

theorem replaceArtificials (structural : ℕ) :
    ∀ (js : List ℕ) (nonbasic : List ℤ) (redundant : List ℕ),
    Follows R (Action.replaceArtificials (K := K) structural js nonbasic redundant)
  | [], _, _ => pure _
  | j :: js, nonbasic, redundant => by
    refine ite (replaceArtificials structural js _ _) ?_
    refine (program hR).bind fun p => (basis _).bind fun row => ?_
    split
    · exact replaceArtificials structural js _ _
    · exact ite (fail _) ((pivot hR _ _).bind fun _ => replaceArtificials structural js _ _)

theorem dropArtificials (structural : ℕ) (nonbasic : List ℤ) :
    Follows R (Action.dropArtificials (K := K) structural nonbasic) := by
  refine (program hR).bind fun p => (replaceArtificials hR structural _ _ _).bind fun x => ?_
  refine ite ((note hR _).bind fun _ => ?_) ?_
  all_goals exact (change hR _).bind fun _ => pure _

theorem restoreObjective (standard : Program K) (nonbasic : List ℤ) :
    Follows R (Action.restoreObjective standard nonbasic) :=
  (program hR).bind fun _ => (basis _).bind fun _ => setProgram hR _

theorem feasibleBasis (limit : ℕ) (standard : Program K) :
    Follows R (Action.feasibleBasis limit standard) := by
  refine (firstPhase hR limit true).bind fun o => ?_
  cases o with
  | optimal nonbasic => exact pure _
  | unbounded =>
    exact (note hR _).bind fun _ => (setProgram hR _).bind fun _ => firstPhase hR limit false
  | infeasible =>
    exact (note hR _).bind fun _ => (setProgram hR _).bind fun _ => firstPhase hR limit false

theorem solve (limit : ℕ) : Follows R (Action.solve (K := K) limit) := by
  refine (standardize hR).bind fun _ => (change hR _).bind fun _ => (program hR).bind fun P => ?_
  refine (feasibleBasis hR limit P).bind fun o => ?_
  cases o with
  | unbounded => exact pure _
  | infeasible => exact pure _
  | optimal nonbasic =>
    refine (dropArtificials hR P.n nonbasic).bind fun left =>
      (restoreObjective hR P left).bind fun _ => ?_
    exact (program hR).bind fun p => (note hR _).bind fun _ => solveFrom hR limit left

end Follows

end Action

namespace Operation

/-- Snapshots are neither taken nor asked for. -/
def Plain : Operation K → Prop
  | .snapshot _ | .restore _ | .fork .. | .isolated _ => False
  | _ => True

/-- An operation without snapshots depends on the program alone. -/
theorem follows_of_plain [Scalar K] {R : Session K → Session K → Prop} (hR : Session.Parallel R)
    (limit : ℕ) (op : Operation K) (h : op.Plain) : Action.Follows R (op.perform limit) := by
  cases op with
  | addVariable coefficient column restriction =>
    exact (Action.Follows.addVariable hR coefficient column restriction).bind fun _ => .pure _
  | addConstraint relation value row =>
    exact (Action.Follows.addConstraint hR relation value row).bind fun _ => .pure _
  | setConstant value => exact (Action.Follows.setConstant hR value).bind fun _ => .pure _
  | standardize => exact (Action.Follows.standardize hR).bind fun _ => .pure _
  | prepare absolute => exact (Action.Follows.prepare hR absolute).bind fun _ => .pure _
  | pivot row column => exact (Action.Follows.pivot hR row column).bind fun _ => .pure _
  | solve => exact (Action.Follows.solve hR limit).bind fun _ => .remember hR _
  | solveFrom nonbasic =>
    exact (Action.Follows.solveFrom hR limit nonbasic).bind fun _ => .remember hR _
  | snapshot name => exact h.elim
  | restore name => exact h.elim
  | fork name changes => exact h.elim
  | isolated body => exact h.elim

end Operation

end Simplex
