import Simplex.Program.Basic
/-! Minimisation problems as a general solver takes them, and what such a solver answers. A program
    is handed over with its maximum turned into a minimum and every `≥` turned into a `≤`. -/

namespace Simplex

/-- Minimise `costs · x` subject to upper bounds and equations on rows and to a restriction of each
    variable. -/
structure Problem (K : Type) where
  costs : List K
  upper : List (List K × K)
  equal : List (List K × K)
  restrictions : List Restriction

/-- What a solver answers: an optimal point with its value, or why there is none. -/
inductive Answer (K : Type) where
  | optimum (point : List K) (value : K)
  | infeasible
  | unbounded
  deriving DecidableEq

/-- Why a program has no optimum. -/
inductive NoOptimum where
  | infeasible | unbounded
  deriving DecidableEq, Repr

def NoOptimum.message : NoOptimum → String
  | .infeasible => "Problem is infeasible"
  | .unbounded => "Problem is unbounded"

namespace Objective
variable {K : Type} [Scalar K]

/-- A value of the objective as a value to be minimised, and back. -/
def asMinimum : Objective → K → K
  | .minimize, x => x
  | .maximize, x => -x

end Objective

namespace Program
variable {K : Type} [Scalar K]

/-- The problem of finding the optimum of the program without its constant. -/
def problem (p : Program K) : Problem K :=
  { costs := p.costs.map p.objective.asMinimum
    upper := p.constraints.filterMap fun (relation, b, row) =>
      match relation with
      | .equal => none
      | .lessEqual => some (row, b)
      | .greaterEqual => some (row.map (- ·), -b)
    equal := p.constraints.filterMap fun (relation, b, row) =>
      if relation = .equal then some (row, b) else none
    restrictions := p.restrictions }

/-- The optimum of the program by a solver's answer: a point and the value
    of the objective there. -/
def optimumBy (p : Program K) : Answer K → Except NoOptimum (List K × K)
  | .optimum point value => .ok (point, p.objective.asMinimum value + p.constant)
  | .infeasible => .error .infeasible
  | .unbounded => .error .unbounded

end Program

end Simplex
