import Simplex.Tableau.Pivot
import Simplex.Tableau.Basis
/-! The simplex search. The entering variable is the first with a positive coefficient in the
    objective, the leaving row the first with the least ratio. A search makes at most a given number
    of steps, and running out of them is a failure of its own. -/

namespace Simplex

/-- What to do with a tableau: stop, or exchange a basic variable for a nonbasic one. -/
inductive Move where
  | stop (outcome : Outcome)
  | exchange (row entering leaving : Nat)
  deriving DecidableEq, Repr

namespace Program
variable {K : Type} [Scalar K]

/-- The first variable whose coefficient in the objective is above the tolerance. -/
def entering? (p : Program K) : Option Nat := p.costs.findIdx? (Scalar.lt p.tolerance)

/-- The ratio that row `i` allows the entering variable, if its coefficient bounds it. A right-hand
    side that is negative within the tolerance counts as zero. -/
def ratio? (p : Program K) (entering i : Nat) : Option K :=
  let a := p.entry i entering
  let b := p.value i
  if Scalar.le a p.tolerance then none
  else some ((if Scalar.lt (-p.tolerance) b then Scalar.clamp b else b) / a)

/-- Takes row `i` if its ratio is strictly less than the best so far. -/
def betterRow (p : Program K) (entering : Nat) (best : Option (Nat × K)) (i : Nat) :
    Option (Nat × K) :=
  match p.ratio? entering i, best with
  | none, _ => best
  -- the least ratio starts at infinity, which an infinite ratio does not beat
  | some r, none => if Scalar.bounded r then some (i, r) else none
  | some r, some (_, least) => if Scalar.lt r least then some (i, r) else best

/-- The first row with the least ratio. -/
def leavingRow? (p : Program K) (entering : Nat) : Option Nat :=
  ((List.range p.m).foldl (p.betterRow entering) none).map (·.1)

/-- The next step of the search. -/
def move (p : Program K) (nonbasic : List Int) : Except BasisFault Move :=
  match p.entering? with
  | none => .ok (.stop (.optimal nonbasic))
  | some entering =>
    match p.leavingRow? entering with
    | none => .ok (.stop .unbounded)
    | some row => do
      let leaving ← p.leavingVariable nonbasic row
      if nonbasic.contains (entering : Int) then return .exchange row entering leaving
      else throw .enteringBasic

end Program

namespace Action
variable {K : Type} [Scalar K]

/-- Searches from a basis that is given by its nonbasic variables. -/
def search : Nat → List Int → Action K Outcome
  | 0, _ => throw .outOfSteps
  | limit + 1, nonbasic => do
    let p ← program
    match ← basis (p.move nonbasic) with
    | .stop outcome => return outcome
    | .exchange row entering leaving =>
      pivot row entering
      note (.exchanged row entering leaving (← program))
      search limit (IndexSet.exchange entering leaving nonbasic)

/-- Searches a prepared program. Any integers may be given as nonbasic variables. -/
def solveFrom (limit : Nat) (nonbasic : List Int) : Action K Outcome := do
  let p ← program
  if !p.simplex then throw (.basis .notPrepared)
  search limit (IndexSet.ofList nonbasic)

end Action

end Simplex
