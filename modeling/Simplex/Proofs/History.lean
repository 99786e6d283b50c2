import Simplex.Operation
import Mathlib.Data.Nat.Notation
/-! Histories of a session: operations are performed one after the other, and one that
    fails does not end the history. What it had done before it failed stays done, and the
    next one goes on from there. -/

namespace Simplex

namespace Operation
variable {K : Type}

mutual

/-- Snapshots are gone on with as they are. -/
def Unmodified : Operation K → Prop
  | .fork _ changes => changes = {}
  | .isolated body => AllUnmodified body
  | _ => True

def AllUnmodified : List (Operation K) → Prop
  | [] => True
  | op :: ops => op.Unmodified ∧ AllUnmodified ops

end

mutual

/-- What an operation may fail with: one of its arguments is not read or does not fit the
    size of the program, the search finds no basis or is out of steps, or there is no
    snapshot of that name. -/
def MayFail : Operation K → Fault → Prop
  | .addVariable coefficient column restriction, e =>
    (∃ f, (restriction = .error f ∨ column = .error f ∨ coefficient = .error f) ∧ e = .argument f) ∨
      ∃ w m, column = .ok w ∧ w.length ≠ m ∧ e = .size (.column w.length m)
  | .addConstraint relation value row, e =>
    (∃ f, (relation = .error f ∨ row = .error f ∨ value = .error f) ∧ e = .argument f) ∨
      ∃ w n, row = .ok w ∧ w.length ≠ n ∧ e = .size (.row w.length n)
  | .setConstant value, e => ∃ f, value = .error f ∧ e = .argument f
  | .standardize, _ | .prepare _, _ | .snapshot _, _ => False
  | .pivot row column, e =>
    (∃ m : ℕ, ¬(0 ≤ row ∧ row < m) ∧ e = .size (.noConstraint row m)) ∨
      ∃ n : ℕ, ¬(0 ≤ column ∧ column < n) ∧ e = .size (.noVariable column n)
  | .solve, e | .solveFrom _, e => (∃ f, e = .basis f) ∨ e = .outOfSteps
  | .restore _, e | .fork .., e => e = .unknownName
  | .isolated body, e => AnyMayFail body e

def AnyMayFail : List (Operation K) → Fault → Prop
  | [], _ => False
  | op :: ops, e => op.MayFail e ∨ AnyMayFail ops e

end

variable [Scalar K]

mutual

/-- No constraint is added up to its right-hand side, and then the right-hand side is not read. In a
    block this is asked of the operations that the block comes to. -/
def ValuesRead (limit : ℕ) : Operation K → Session K → Prop
  | .addConstraint relation value row, s =>
    ∀ r w, relation = .ok r → row = .ok w → w.length = s.program.n → ∃ b, value = .ok b
  | .isolated body, s => AllValuesRead limit body s
  | _, _ => True

def AllValuesRead (limit : ℕ) : List (Operation K) → Session K → Prop
  | [], _ => True
  | op :: ops, s =>
    op.ValuesRead limit s ∧ ∀ a s', op.perform limit s = .ok a s' → AllValuesRead limit ops s'

end

end Operation

namespace Session
variable {K : Type} [Scalar K] {limit : ℕ} {op : Operation K} {ops : List (Operation K)}
    {s : Session K}

/-- The session after some operations. -/
def run (limit : ℕ) : List (Operation K) → Session K → Session K
  | [], s => s
  | op :: ops, s => run limit ops ((op.perform limit).after s)

/-- The operations of a history, each with the session that it is performed in. -/
def trace (limit : ℕ) : List (Operation K) → Session K → List (Operation K × Session K)
  | [], _ => []
  | op :: ops, s => (op, s) :: trace limit ops ((op.perform limit).after s)

/-- What every operation keeps that is performed in a session of the history holds in the end. -/
theorem run_invariant {I : Session K → Prop} (hs : I s)
    (hstep : ∀ x ∈ trace limit ops s, I x.2 → I ((x.1.perform limit).after x.2)) :
    I (run limit ops s) := by
  induction ops generalizing s with
  | nil => exact hs
  | cons op ops ih =>
    refine ih (hstep (op, s) List.mem_cons_self hs) fun x hx => ?_
    exact hstep x (List.mem_cons_of_mem _ hx)

theorem mem_of_mem_trace {x : Operation K × Session K} (h : x ∈ trace limit ops s) : x.1 ∈ ops := by
  induction ops generalizing s with
  | nil => cases h
  | cons op ops ih =>
    rcases List.mem_cons.1 h with rfl | h
    · exact List.mem_cons_self
    · exact List.mem_cons_of_mem _ (ih h)

end Session

end Simplex
