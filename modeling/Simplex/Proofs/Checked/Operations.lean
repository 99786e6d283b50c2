import Simplex.Proofs.History
import Simplex.Proofs.Checked.Sound
/-! No check of an operation fails. Whatever its arguments are, an operation on a session in which
    an invariant holds of the program and of every snapshot does what it does with its checks,
    leaves the invariant where it stops, and fails only in one of the ways it may. Modified
    snapshots are left out, and where the invariant does not allow for a relation without a
    right-hand side, right-hand sides have to be read. -/

namespace Simplex

/-- A program made of a snapshot without replacements is the snapshot. -/
theorem Changes.apply_default {K : Type} [Scalar K] (p : Program K) :
    ({} : Changes K).apply p = .ok p := by
  have hfits : ¬p.m * p.costs.length ≠ p.m * p.n := not_not.2 rfl
  change (if p.m * p.costs.length ≠ p.m * p.n then throw .malformed
    else pure p : Except ArgumentFault (Program K)) = _
  rw [if_neg hfits]
  rfl

theorem Action.snapshot_cases {K : Type} (name : String) (s : Session K) :
    (∃ x ∈ s.snapshots, Action.snapshot name s = .ok x.2 s) ∨
      Action.snapshot name s = .error .unknownName s := by
  unfold Action.snapshot
  cases hfind : s.snapshots.find? (·.1 == name) with
  | none => exact .inr rfl
  | some x => exact .inl ⟨x, List.mem_of_find?_eq_some hfind, rfl⟩

namespace Checked
open Program
variable {K : Type} {I : Program K → Prop} {E : Fault → Prop} {s : Session K}

namespace Keeps

theorem snapshot (hI : s.Everywhere I) (name : String) :
    Keeps I (fun e => e = .unknownName) (Action.snapshot name) (Action.snapshot name) s
      fun p _ => I p := by
  refine ⟨rfl, ?_⟩
  rcases Action.snapshot_cases name s with ⟨x, hx, hfound⟩ | hfail
  · rw [hfound]
    exact ⟨hI, hI.2 x hx⟩
  · rw [hfail]
    exact ⟨hI, rfl⟩

theorem remember (hI : s.Everywhere I) (outcome : Outcome) :
    Keeps I E (Action.remember outcome) (Action.remember outcome) s fun _ _ => True := by
  cases outcome <;> exact ⟨rfl, hI, trivial⟩

/-- An operation whose action gives nothing back. -/
theorem done {c act : Action K Unit} {Q : Unit → Session K → Prop} (h : Keeps I E c act s Q) :
    Keeps I E (do c; return none) (do act; return (none : Option Outcome)) s fun _ _ => True :=
  bind h fun _ _ hI _ => pure hI trivial

variable [Scalar K] (hinv : Invariant I)
include hinv

/-! ### Additions -/

theorem addVariable (hI : s.Everywhere I) (coefficient : Except ArgumentFault K)
    (column : Except ArgumentFault (List K)) (restriction : Except ArgumentFault Restriction) :
    Keeps I (Operation.addVariable coefficient column restriction).MayFail
      (Checked.addVariable coefficient column restriction)
      (Action.addVariable coefficient column restriction) s
      fun _ _ => True := by
  refine require (hinv.shaped hI.1).rows ?_
  refine argument hI (fun f hf => .inl ⟨f, .inl hf, rfl⟩) fun kind _ => ?_
  refine argument hI (fun f hf => .inl ⟨f, .inr (.inl hf), rfl⟩) fun w hw => ?_
  refine program ?_
  by_cases hlength : w.length ≠ s.program.m
  · simp only [if_pos hlength]
    exact throw hI (.inr ⟨w, _, hw, hlength, rfl⟩)
  · simp only [if_neg hlength]
    have hlowered := hinv.change hI.1 (.lowerFlags (kind == .nonNegative))
    refine change (argument ⟨hlowered, hI.2⟩ (fun f hf => .inl ⟨f, .inr (.inr hf), rfl⟩)
      fun c _ => ?_)
    exact change_eq rfl rfl ⟨hlowered, hI.2⟩
      (hinv.change hlowered (.newVariable c kind (not_not.1 hlength))) trivial

/-- A right-hand side that is not read leaves a relation behind. -/
theorem addConstraint (hI : s.Everywhere I) (relation : Except ArgumentFault Relation)
    (value : Except ArgumentFault K) (row : Except ArgumentFault (List K))
    (hleft : (∀ p r, I p → I (p.appendRelation r)) ∨
      ∀ r w, relation = .ok r → row = .ok w → w.length = s.program.n → ∃ b, value = .ok b) :
    Keeps I (Operation.addConstraint relation value row).MayFail
      (Checked.addConstraint relation value row) (Action.addConstraint relation value row) s
      fun _ _ => True := by
  refine require (hinv.shaped hI.1).row ?_
  refine argument hI (fun f hf => .inl ⟨f, .inl hf, rfl⟩) fun r hr => ?_
  refine argument hI (fun f hf => .inl ⟨f, .inr (.inl hf), rfl⟩) fun w hw => ?_
  refine program ?_
  by_cases hlength : w.length ≠ s.program.n
  · simp only [if_pos hlength]
    exact throw hI (.inr ⟨w, _, hw, hlength, rfl⟩)
  · simp only [if_neg hlength]
    have hlength := not_not.1 hlength
    refine change ?_
    cases value with
    | error e =>
      -- the relation is in the program by now: the invariant bears that, or the value reads
      rcases hleft with hleft | hread
      · exact throw ⟨hleft _ r hI.1, hI.2⟩ (.inl ⟨e, .inr (.inr rfl), rfl⟩)
      · obtain ⟨b, hb⟩ := hread r w hr hw hlength
        cases hb
    | ok b => exact ⟨rfl, ⟨hinv.change hI.1 (.newConstraint r b hlength), hI.2⟩, trivial⟩

theorem setConstant (hI : s.Everywhere I) (value : Except ArgumentFault K) :
    Keeps I (Operation.setConstant value).MayFail (Action.setConstant value)
      (Action.setConstant value) s
      fun _ _ => True :=
  argument hI (fun f hf => ⟨f, hf, rfl⟩) fun a _ =>
    change_eq rfl rfl hI (hinv.change hI.1 (.constant a)) trivial

theorem pivotAnywhere (hI : s.Everywhere I) (row column : ℤ) :
    Keeps I (Operation.pivot (K := K) row column).MayFail (Checked.pivot row column)
      (Action.pivot row column) s
      fun _ _ => True := by
  rcases Action.pivot_cases s row column with
      ⟨r, hr, c, hc, rfl, rfl⟩ | ⟨hrow, hfail⟩ | ⟨hcolumn, hfail⟩
  · exact (pivot hinv hI hr hc).mono (fun _ _ _ => trivial) fun _ => id
  all_goals refine require (hinv.shaped hI.1).toRectangular ⟨rfl, ?_⟩
  · rw [hfail]
    exact ⟨hI, .inl ⟨_, hrow, rfl⟩⟩
  · rw [hfail]
    exact ⟨hI, .inr ⟨_, hcolumn, rfl⟩⟩

/-! ### Snapshots -/

theorem takeSnapshot (hI : s.Everywhere I) (name : String) :
    Keeps I E (Checked.takeSnapshot name) (Action.takeSnapshot name) s fun _ _ => True := by
  refine require (hinv.shaped hI.1).toRectangular ⟨rfl, ⟨hI.1, ?_⟩, trivial⟩
  intro x hx
  rcases List.mem_cons.1 hx with rfl | hx
  · exact hI.1
  · exact hI.2 x hx

theorem restore (hI : s.Everywhere I) (name : String) :
    Keeps I (fun e => e = .unknownName) (Checked.restore name) (Action.restore name) s
      fun _ _ => True := by
  refine require_after (fun hp => (hinv.shaped hp).toRectangular) ?_
  exact bind (snapshot hI name) fun _ _ hI' hp => change_eq rfl rfl hI' hp trivial

theorem fork (hI : s.Everywhere I) (name : String) :
    Keeps I (fun e => e = .unknownName) (Checked.fork name {}) (Action.fork name {}) s
      fun _ _ => True := by
  refine require_after (fun hp => (hinv.shaped hp).toRectangular) ?_
  refine bind (snapshot hI name) fun p _ hI' hp => ?_
  rw [Changes.apply_default]
  exact change_eq rfl rfl hI' hp trivial

/-- The program is put back, and the snapshots that were taken keep the invariant too. -/
theorem isolated {α : Type} {c act : Action K α} {Q : α → Session K → Prop} (hI : s.Everywhere I)
    (h : Keeps I E c act s Q) :
    Keeps I E (Checked.isolated c) (Action.isolated act) s fun _ _ => True := by
  have heq : Action.isolated c s = Action.isolated act s := by simp only [Action.isolated, h.1]
  refine require (hinv.shaped hI.1).toRectangular ⟨heq, ?_⟩
  simp only [Action.isolated]
  cases hact : act s with
  | error e s' =>
    obtain ⟨hI', he⟩ := h.of_error hact
    exact ⟨⟨hI.1, hI'.2⟩, he⟩
  | ok a s' => exact ⟨⟨hI.1, (h.of_ok hact).1.2⟩, trivial⟩

end Keeps

/-! ### Operations -/

mutual

theorem perform_keeps [Scalar K] (hinv : Invariant I) {limit : ℕ} :
    ∀ (op : Operation K) {s : Session K}, s.Everywhere I → op.Unmodified →
    (∀ p r, I p → I (p.appendRelation r)) ∨ op.ValuesRead limit s →
    Keeps I op.MayFail (perform limit op) (op.perform limit) s fun _ _ => True
  | .addVariable coefficient column restriction, _, hI, _, _ =>
    (Keeps.addVariable hinv hI coefficient column restriction).done
  | .addConstraint relation value row, _, hI, _, hleft =>
    (Keeps.addConstraint hinv hI relation value row hleft).done
  | .setConstant value, _, hI, _, _ => (Keeps.setConstant hinv hI value).done
  | .standardize, _, hI, _, _ => (Keeps.standardize hinv hI).done
  | .prepare absolute, _, hI, _, _ => (Keeps.prepare hinv absolute hI).done
  | .pivot row column, _, hI, _, _ => (Keeps.pivotAnywhere hinv hI row column).done
  | .solve, _, hI, _, _ =>
    (Keeps.solve hinv hI limit).bind fun outcome _ hI' _ => Keeps.remember hI' outcome
  | .solveFrom nonbasic, _, hI, _, _ =>
    (Keeps.solveFrom hinv hI limit nonbasic).bind fun outcome _ hI' _ => Keeps.remember hI' outcome
  | .snapshot name, _, hI, _, _ => (Keeps.takeSnapshot hinv hI name).done
  | .restore name, _, hI, _, _ => (Keeps.restore hinv hI name).done
  | .fork name changes, _, hI, hchanges, _ => by
    cases (hchanges : changes = {})
    exact (Keeps.fork hinv hI name).done
  | .isolated body, _, hI, hbody, hleft =>
    Keeps.isolated hinv hI (performAll_keeps hinv body hI hbody hleft)

theorem performAll_keeps [Scalar K] (hinv : Invariant I) {limit : ℕ} : ∀ (ops : List (Operation K))
    {s : Session K}, s.Everywhere I → Operation.AllUnmodified ops →
    (∀ p r, I p → I (p.appendRelation r)) ∨ Operation.AllValuesRead limit ops s →
    Keeps I (Operation.AnyMayFail ops) (performAll limit ops) (Operation.performAll limit ops) s
      fun _ _ => True
  | [], _, hI, _, _ => Keeps.pure hI trivial
  | op :: ops, s, hI, hops, hleft => by
    have hfirst :=
      (perform_keeps hinv op hI hops.1 (hleft.imp_right And.left)).result.mono (fun _ _ => id)
      fun _ he => (.inl he : Operation.AnyMayFail (op :: ops) _)
    refine Keeps.bind hfirst fun a s' hI' hperform => ?_
    have hrest := performAll_keeps hinv ops hI' hops.2 (hleft.imp_right fun h => h.2 a s' hperform)
    exact hrest.mono (fun _ _ => id) fun _ he => .inr he

end

end Checked

end Simplex
