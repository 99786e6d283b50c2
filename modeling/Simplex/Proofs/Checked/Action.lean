import Simplex.Operation
import Simplex.Proofs.Checked.Lookup
/-! The operations with their checks. Each of them is the operation step by step, and
    before a step that looks items up by their index or that combines lists item by item it
    is checked that the indices and the shapes fit. A check that fails ends the operation
    with the fault `misaligned`. -/

namespace Simplex.Checked
variable {K : Type} [Scalar K]

/-- The result of a checked lookup, or its failure. -/
def lookup {α : Type} : Except Fault α → Action K α
  | .ok a => pure a
  | .error e => throw e

/-- A check of the program under work. -/
def require (c : Program K → Prop) [DecidablePred c] : Action K Unit := do
  lookup (expect (c (← Action.program)))

/-! ### Additions and standard form -/

/-- The new column is set beside the rows. Its length is compared by the addition itself, and there
    is a row for every right-hand side. -/
def addVariable (coefficient : Except ArgumentFault K) (column : Except ArgumentFault (List K))
    (restriction : Except ArgumentFault Restriction) : Action K Unit := do
  require fun p => p.rows.length = p.m
  Action.addVariable coefficient column restriction

/-- The new row is set below the others. -/
def addConstraint (relation : Except ArgumentFault Relation) (value : Except ArgumentFault K)
    (row : Except ArgumentFault (List K)) : Action K Unit := do
  require fun p => ∀ other ∈ p.rows, other.length = p.n
  Action.addConstraint relation value row

/-- Constraint `i` is looked up, and its row may be negated. -/
def addSlack (i : ℕ) : Action K Unit := do
  require fun p => i < p.m ∧ i < p.relations.length ∧ i < p.rows.length
  let p ← Action.program
  match p.relations[i]? with
  | none => throw .misaligned
  | some .equal => return
  | some _ =>
    Action.change (Program.equalize i)
    addVariable (.ok 0) (.ok (Scalar.unit p.m i)) (.ok .nonNegative)

/-- Variable `j` is looked up in the objective, in all rows and among the restrictions. -/
def splitVariable (j : ℕ) : Action K Unit := do
  require fun p => j < p.n ∧ j < p.restrictions.length ∧ p.Rectangular
  let p ← Action.program
  match p.restrictions[j]? with
  | none => throw .misaligned
  | some .nonNegative => return
  | some .unrestricted =>
    Action.change (Program.restrict j)
    addVariable (.ok (-p.cost j)) (.ok ((p.column j).map (- ·))) (.ok .nonNegative)

def standardize : Action K Unit := do
  let p ← Action.program
  if p.standard then return
  Action.setProgram p.toMaximize
  (List.range p.m).forM addSlack
  let q ← Action.program
  (List.range q.n).forM splitVariable
  Action.change fun p => { p with standard := true, simplex := false }

/-! ### The search -/

def addArtificial (i : ℕ) : Action K Unit := do
  let p ← Action.program
  addVariable (.ok 0) (.ok (Scalar.unit p.m i)) (.ok .nonNegative)

/-- The rows of negative right-hand sides are negated and the columns are summed up. -/
def prepare (absolute : Bool) : Action K Unit := do
  let p ← Action.program
  if p.simplex then return
  standardize
  require Program.Rectangular
  Action.change fun p => p.normalizeSigns.auxiliaryObjective absolute
  let q ← Action.program
  (List.range q.m).forM addArtificial
  Action.change fun p => { p with simplex := true }

/-- The numbers before the pivot are those of a snapshot, whose matrix has to have its shape. -/
def pivot (row column : ℤ) : Action K Unit := do
  require Program.Rectangular
  Action.pivot row column

def search : ℕ → List ℤ → Action K Outcome
  | 0, _ => throw .outOfSteps
  | limit + 1, nonbasic => do
    let p ← Action.program
    match ← lookup (move p nonbasic) with
    | .stop outcome => return outcome
    | .exchange row entering leaving =>
      pivot row entering
      let q ← Action.program
      lookup (shown q)
      Action.note (.exchanged row entering leaving q)
      search limit (IndexSet.exchange entering leaving nonbasic)

def solveFrom (limit : ℕ) (nonbasic : List ℤ) : Action K Outcome := do
  let p ← Action.program
  if !p.simplex then throw (.basis .notPrepared)
  search limit (IndexSet.ofList nonbasic)

/-! ### The two phases -/

def firstPhase (limit : ℕ) (absolute : Bool) : Action K Outcome := do
  let structural := (← Action.program).n
  prepare absolute
  match ← solveFrom limit (IndexSet.below structural) with
  | .optimal nonbasic =>
    let p ← Action.program
    let objective := p.firstPhaseObjective nonbasic
    Action.note (.firstPhase objective)
    if Scalar.lt objective (-p.tolerance) then return .infeasible
    match ← lookup (positiveBasic? p nonbasic ((List.range p.n).drop structural)) with
    | some j =>
      Action.note (.positiveArtificial j)
      return .infeasible
    | none => return .optimal nonbasic
  | outcome => return outcome

/-- The row of a basic artificial variable is looked up for the variable that takes its place. -/
def replaceArtificials (structural : ℕ) : List ℕ → List ℤ → List ℕ → Action K (List ℤ × List ℕ)
  | [], nonbasic, redundant => return (nonbasic, redundant)
  | j :: rest, nonbasic, redundant => do
    if nonbasic.contains (j : ℤ) then replaceArtificials structural rest nonbasic redundant
    else
      let p ← Action.program
      let row ← lookup (basicRow p j)
      require fun p => row < p.rows.length
      match p.replacement? structural row with
      | none =>
        let redundant := if redundant.contains row then redundant else redundant ++ [row]
        replaceArtificials structural rest nonbasic redundant
      | some entering =>
        if !nonbasic.contains (entering : ℤ) then throw (.basis .replacementBasic)
        pivot row entering
        replaceArtificials structural rest (IndexSet.exchange entering j nonbasic) redundant

/-- The redundant rows are deleted by their index, each with its relation
    and its right-hand side. -/
def dropArtificials (structural : ℕ) (nonbasic : List ℤ) : Action K (List ℤ) := do
  let p ← Action.program
  let artificials := (List.range p.n).drop structural
  let (nonbasic, redundant) ← replaceArtificials structural artificials nonbasic []
  if redundant ≠ [] then Action.note (.redundant redundant.length)
  require fun p => ∀ i ∈ redundant, i < p.m ∧ i < p.relations.length ∧ i < p.rows.length
  Action.change (Program.strip structural redundant)
  return nonbasic.filter (· < structural)

/-- The costs of the basic variables are looked up in the objective of the standard form, and
    multiplied with the columns. -/
def restoreObjective (standard : Program K) (nonbasic : List ℤ) : Action K Unit := do
  let p ← Action.program
  let columns ← lookup (basicVariables p nonbasic)
  require fun p => p.Rectangular ∧ p.n = standard.n ∧ columns.length = p.m ∧
    ∀ j ∈ columns, j < standard.n
  Action.setProgram (p.withObjective standard columns)

def feasibleBasis (limit : ℕ) (standard : Program K) : Action K Outcome := do
  match ← firstPhase limit true with
  | .optimal nonbasic => return .optimal nonbasic
  | ended =>
    Action.note (.retry ended)
    Action.setProgram standard
    require Program.Rectangular
    firstPhase limit false

def solve (limit : ℕ) : Action K Outcome := do
  standardize
  Action.change fun p => { p with simplex := false }
  require Program.Rectangular
  let standard ← Action.program
  match ← feasibleBasis limit standard with
  | .optimal nonbasic =>
    let nonbasic ← dropArtificials standard.n nonbasic
    restoreObjective standard nonbasic
    let p ← Action.program
    Action.note (.secondPhase p.m p.n)
    solveFrom limit nonbasic
  | outcome => return outcome

/-! ### Snapshots -/

/-- The matrix of a snapshot has to have the shape of the program. -/
def takeSnapshot (name : String) : Action K Unit := do
  require Program.Rectangular
  Action.takeSnapshot name

def restore (name : String) : Action K Unit := do
  Action.restore name
  require Program.Rectangular

def fork (name : String) (changes : Changes K) : Action K Unit := do
  Action.fork name changes
  require Program.Rectangular

/-- The program is put back from a snapshot. -/
def isolated {α : Type} (act : Action K α) : Action K α := do
  require Program.Rectangular
  Action.isolated act

/-! ### Operations -/

mutual

def perform (limit : ℕ) : Operation K → Action K (Option Outcome)
  | .addVariable coefficient column restriction => do
    addVariable coefficient column restriction
    return none
  | .addConstraint relation value row => do
    addConstraint relation value row
    return none
  | .setConstant value => do
    Action.setConstant value
    return none
  | .standardize => do
    standardize
    return none
  | .prepare absolute => do
    prepare absolute
    return none
  | .pivot row column => do
    pivot row column
    return none
  | .solve => do
    Action.remember (← solve limit)
  | .solveFrom nonbasic => do
    Action.remember (← solveFrom limit nonbasic)
  | .snapshot name => do
    takeSnapshot name
    return none
  | .restore name => do
    restore name
    return none
  | .fork name changes => do
    fork name changes
    return none
  | .isolated body => isolated (performAll limit body)

def performAll (limit : ℕ) : List (Operation K) → Action K (Option Outcome)
  | [] => return none
  | op :: ops => do
    let _ ← perform limit op
    performAll limit ops

end

end Simplex.Checked
