import Simplex.Optimum.LeastIndex
import Simplex.Number.Fraction
/-! The exact optimum. A program of doubles is a program of rationals, and over the rationals a
    search with tolerance zero makes no error. -/

namespace Simplex

/-- The exact value of a finite double. -/
def rational? (x : Float) : Option Rat := (Binary.ofFloat x).toRat?

/-- A problem over exact numbers, if all its numbers are finite. -/
def Problem.rational? (q : Problem Float) : Option (Problem Rat) := do
  let side := fun (rows : List (List Float × Float)) =>
    rows.mapM fun (row, b) => return (← row.mapM Simplex.rational?, ← Simplex.rational? b)
  return {
    costs := ← q.costs.mapM Simplex.rational?
    upper := ← side q.upper
    equal := ← side q.equal
    restrictions := q.restrictions }

/-- Why there is no exact optimum: the problem is none that a general solver takes, the program has
    no optimum, or the search has used up its steps. -/
inductive ExactFault where
  | unsuitable
  | noOptimum (reason : NoOptimum)
  | outOfSteps
  deriving DecidableEq, Repr

/-- An exact answer in doubles. -/
def Answer.rounded : Answer Rat → Answer Float
  | .optimum x value => .optimum (x.map Binary.nearestRat) (Binary.nearestRat value)
  | .infeasible => .infeasible
  | .unbounded => .unbounded

/-- The optimum of a program of doubles, computed without rounding: the nearest doubles to the
    coordinates of the optimal point, and the value there. The program needs a variable and finite
    numbers. -/
def Program.exactOptimum (limit : Nat) (p : Program Float) :
    Except ExactFault (List Float × Float) :=
  match p.costs, p.problem.rational? with
  | _ :: _, some q =>
    match q.solve? limit with
    | none => .error .outOfSteps
    | some answer => (p.optimumBy answer.rounded).mapError .noOptimum
  | _, _ => .error .unsuitable

/-- A number with six places and no sign before zero. -/
def sixPlaces (x : Float) : String :=
  let text := fixedText 6 x
  if text = "-0.000000" then "0.000000" else text

end Simplex
