import Simplex.Snapshot
import Simplex.Tableau.TwoPhase
/-! The operations on a program under work, as data. A block of operations can be run without
    lasting changes; the first failure in it ends the block and is passed on. -/

namespace Simplex

inductive Operation (K : Type) where
  | addVariable (coefficient : Except ArgumentFault K) (column : Except ArgumentFault (List K))
      (restriction : Except ArgumentFault Restriction)
  | addConstraint (relation : Except ArgumentFault Relation) (value : Except ArgumentFault K)
      (row : Except ArgumentFault (List K))
  | setConstant (value : Except ArgumentFault K)
  | standardize
  | prepare (absolute : Bool)
  | pivot (row column : Int)
  | solve
  | solveFrom (nonbasic : List Int)
  | snapshot (name : String)
  | restore (name : String)
  | fork (name : String) (changes : Changes K)
  | isolated (body : List (Operation K))

namespace Action
variable {K : Type} [Scalar K]

/-- Keeps the nonbasic variables of an optimum in mind. -/
def remember (outcome : Outcome) : Action K (Option Outcome) := fun s =>
  match outcome with
  | .optimal nonbasic => .ok (some outcome) { s with lastNonbasic := nonbasic }
  | _ => .ok (some outcome) s

end Action

namespace Operation
variable {K : Type} [Scalar K]

mutual

/-- Performs an operation, in which every search makes at most `limit` steps. A search
    answers with its outcome. -/
def perform (limit : Nat) : Operation K → Action K (Option Outcome)
  | .addVariable coefficient column restriction => do
    Action.addVariable coefficient column restriction
    return none
  | .addConstraint relation value row => do
    Action.addConstraint relation value row
    return none
  | .setConstant value => do
    Action.setConstant value
    return none
  | .standardize => do
    Action.standardize
    return none
  | .prepare absolute => do
    Action.prepare absolute
    return none
  | .pivot row column => do
    Action.pivot row column
    return none
  | .solve => do
    Action.remember (← Action.solve limit)
  | .solveFrom nonbasic => do
    Action.remember (← Action.solveFrom limit nonbasic)
  | .snapshot name => do
    Action.takeSnapshot name
    return none
  | .restore name => do
    Action.restore name
    return none
  | .fork name changes => do
    Action.fork name changes
    return none
  | .isolated body => Action.isolated (performAll limit body)

/-- Performs operations one after the other. -/
def performAll (limit : Nat) : List (Operation K) → Action K (Option Outcome)
  | [] => return none
  | op :: ops => do
    let _ ← op.perform limit
    performAll limit ops

end

end Operation

end Simplex
