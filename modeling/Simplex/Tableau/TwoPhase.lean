import Simplex.Tableau.Auxiliary
/-! The two-phase method. The first phase finds a feasible basis under a quick objective, and
    again under a safe one if that fails. Then the artificial variables leave the basis, rows
    that say nothing are dropped, the objective comes back in terms of the basis, and the
    second phase optimises. -/

namespace Simplex

/-- The items of a list whose positions are not among the given ones. -/
def dropPositions {α : Type} (positions : List Nat) (xs : List α) : List α :=
  (xs.zipIdx.filter fun x => !positions.contains x.2).map (·.1)

namespace Program
variable {K : Type} [Scalar K]

/-- The first of the structural variables with a coefficient in row `i` that is not zero up to the
    tolerance. -/
def replacement? (p : Program K) (structural i : Nat) : Option Nat :=
  ((p.row i).take structural).findIdx? fun a => Scalar.lt p.tolerance (Scalar.abs a)

/-- The program without the given rows and with only the structural variables. -/
def strip (structural : Nat) (redundant : List Nat) (p : Program K) : Program K :=
  { p with
    relations := dropPositions redundant p.relations
    rhs := dropPositions redundant p.rhs
    rows := (dropPositions redundant p.rows).map (·.take structural)
    costs := p.costs.take structural
    restrictions := p.restrictions.take structural }

/-- The objective of `standard` in terms of the given basis: a basic variable has no coefficient,
    and the constant is the value at the basic point. -/
def withObjective (p standard : Program K) (basis : List Nat) : Program K :=
  let basicCosts := basis.map standard.cost
  let reduced := (List.range standard.n).map fun j =>
    standard.cost j - Scalar.dot basicCosts (p.column j)
  { p with
    costs := basis.foldl (fun c j => c.set j 0) reduced
    constant := standard.constant + Scalar.dot basicCosts p.rhs
    standard := true
    simplex := true }

end Program

namespace Action
variable {K : Type} [Scalar K]

/-- Exchanges basic artificial variables for structural ones. Where a row has no structural variable
    to offer, the row is redundant. -/
def replaceArtificials (structural : Nat) :
    List Nat → List Int → List Nat → Action K (List Int × List Nat)
  | [], nonbasic, redundant => return (nonbasic, redundant)
  | j :: rest, nonbasic, redundant => do
    if nonbasic.contains (j : Int) then replaceArtificials structural rest nonbasic redundant
    else
      let p ← program
      let row ← basis (p.basicRow j)
      match p.replacement? structural row with
      | none =>
        let redundant := if redundant.contains row then redundant else redundant ++ [row]
        replaceArtificials structural rest nonbasic redundant
      | some entering =>
        if !nonbasic.contains (entering : Int) then throw (.basis .replacementBasic)
        pivot row entering
        replaceArtificials structural rest (IndexSet.exchange entering j nonbasic) redundant

/-- Rids the program of its artificial variables and of redundant rows. The nonbasic variables that
    are left come back. -/
def dropArtificials (structural : Nat) (nonbasic : List Int) : Action K (List Int) := do
  let p ← program
  let artificials := (List.range p.n).drop structural
  let (nonbasic, redundant) ← replaceArtificials structural artificials nonbasic []
  if redundant ≠ [] then note (.redundant redundant.length)
  change (Program.strip structural redundant)
  return nonbasic.filter (· < structural)

/-- Gives the program the objective of its standard form. -/
def restoreObjective (standard : Program K) (nonbasic : List Int) : Action K Unit := do
  let p ← program
  let columns ← basis (p.basicVariables nonbasic)
  setProgram (p.withObjective standard columns)

/-- The first phase under absolute column weights, and under signed ones if
    that does not end well. -/
def feasibleBasis (limit : Nat) (standard : Program K) : Action K Outcome := do
  match ← firstPhase limit true with
  | .optimal nonbasic => return .optimal nonbasic
  | ended =>
    note (.retry ended)
    setProgram standard
    firstPhase limit false

/-- Solves the program. On success it holds the optimal tableau, with the optimal value of the
    standard form as its constant. -/
def solve (limit : Nat) : Action K Outcome := do
  standardize
  change fun p => { p with simplex := false }
  let standard ← program
  match ← feasibleBasis limit standard with
  | .optimal nonbasic =>
    let nonbasic ← dropArtificials standard.n nonbasic
    restoreObjective standard nonbasic
    let p ← program
    note (.secondPhase p.m p.n)
    solveFrom limit nonbasic
  | outcome => return outcome

end Action

end Simplex
