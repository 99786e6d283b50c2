import Simplex.Program.StandardForm
import Simplex.Tableau.Search
/-! The first phase. Every constraint gets an artificial variable, so that the artificial
    variables are a basis, and the auxiliary objective is searched from it. The program is
    feasible when the artificial variables can all be made zero. The other variables, which come
    before them, are called structural. -/

namespace Simplex

namespace Program
variable {K : Type} [Scalar K]

/-- The program with non-negative right-hand sides: a constraint with a negative one is negated. -/
def normalizeSigns (p : Program K) : Program K :=
  { p with
    rhs := p.rhs.map fun b => if Scalar.lt b 0 then -b else b
    rows := List.zipWith (fun b row => if Scalar.lt b 0 then row.map (- ·) else row) p.rhs p.rows }

/-- The weight of a column: the sum of its coefficients, or of their magnitudes. -/
def weight (p : Program K) (absolute : Bool) (j : Nat) : K :=
  let column := p.column j
  Scalar.sum (if absolute then column.map Scalar.abs else column)

/-- The objective of the first phase: the weights of the columns less the sum of the right-hand
    sides. Under signed weights it is the negated sum of the artificial variables. -/
def auxiliaryObjective (absolute : Bool) (p : Program K) : Program K :=
  { p with
    constant := -(Scalar.sum p.rhs)
    costs := (List.range p.n).map (p.weight absolute) }

/-- The value of the objective when every variable outside the nonbasic ones counts once. -/
def firstPhaseObjective (p : Program K) (nonbasic : List Int) : K :=
  p.constant + Scalar.sum
    (((List.range p.n).filter fun (j : Nat) => !nonbasic.contains (j : Int)).map p.cost)

/-- The first of the given variables that is basic with a positive value. -/
def positiveBasic? (p : Program K) (nonbasic : List Int) : List Nat → Except BasisFault (Option Nat)
  | [] => .ok none
  | j :: rest =>
    if nonbasic.contains (j : Int) then p.positiveBasic? nonbasic rest
    else do
      let i ← p.basicRow j
      if Scalar.lt p.tolerance (p.value i) then return some j
      p.positiveBasic? nonbasic rest

end Program

namespace Action
variable {K : Type} [Scalar K]

/-- Adds the artificial variable of constraint `i`. -/
def addArtificial (i : Nat) : Action K Unit := do
  let p ← program
  addVariable (.ok 0) (.ok (Scalar.unit p.m i)) (.ok .nonNegative)

/-- Prepares the program for the first phase. Nothing is done to a program that is prepared. -/
def prepare (absolute : Bool) : Action K Unit := do
  let p ← program
  if p.simplex then return
  standardize
  change fun q => q.normalizeSigns.auxiliaryObjective absolute
  let q ← program
  (List.range q.m).forM addArtificial
  change fun q => { q with simplex := true }

/-- Runs the first phase. An optimum is reported only if it makes every artificial variable zero. -/
def firstPhase (limit : Nat) (absolute : Bool) : Action K Outcome := do
  let structural := (← program).n
  prepare absolute
  match ← solveFrom limit (IndexSet.below structural) with
  | .optimal nonbasic =>
    let p ← program
    let objective := p.firstPhaseObjective nonbasic
    note (.firstPhase objective)
    if Scalar.lt objective (-p.tolerance) then return .infeasible
    match ← basis (p.positiveBasic? nonbasic ((List.range p.n).drop structural)) with
    | some j =>
      note (.positiveArtificial j)
      return .infeasible
    | none => return .optimal nonbasic
  | outcome => return outcome

end Action

end Simplex
