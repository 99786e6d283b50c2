import Simplex.Session
/-! Variables and constraints are added at the end, a column or a row at a time. An addition reads
    its arguments in a fixed order and stops at the first that is bad. -/

namespace Simplex

namespace Program
variable {K : Type}

/-- A program without variables and constraints. The objective is read first. -/
def create [Scalar K] (objective : Except ArgumentFault Objective)
    (tolerance : Except ArgumentFault K) :
    Except ArgumentFault (Program K) := do
  return empty (← objective) (← tolerance)

/-- Standard form survives an addition only if what is added keeps to it; a prepared tableau does
    not survive one. -/
def lowerFlags (keeps : Bool) (p : Program K) : Program K :=
  { p with standard := p.standard && keeps, simplex := false }

/-- The program with one more variable. -/
def appendVariable (coefficient : K) (column : List K) (restriction : Restriction) (p : Program K) :
    Program K :=
  { p.lowerFlags (restriction == .nonNegative) with
    costs := p.costs ++ [coefficient]
    restrictions := p.restrictions ++ [restriction]
    rows := List.zipWith (fun row a => row ++ [a]) p.rows column }

/-- The program with one more relation, which waits for its right-hand side and its row. -/
def appendRelation (relation : Relation) (p : Program K) : Program K :=
  { p.lowerFlags (relation == .equal) with relations := p.relations ++ [relation] }

/-- The program with one more right-hand side and its row. -/
def appendRow (value : K) (row : List K) (p : Program K) : Program K :=
  { p with rhs := p.rhs ++ [value], rows := p.rows ++ [row] }

/-- The program with one more constraint. -/
def appendConstraint (relation : Relation) (value : K) (row : List K) (p : Program K) : Program K :=
  (p.appendRelation relation).appendRow value row

@[simp] theorem n_appendVariable (c : K) (column : List K) (r : Restriction) (p : Program K) :
    (p.appendVariable c column r).n = p.n + 1 := by
  simp [appendVariable, n]

@[simp] theorem m_appendVariable (c : K) (column : List K) (r : Restriction) (p : Program K) :
    (p.appendVariable c column r).m = p.m := rfl

@[simp] theorem n_appendConstraint (r : Relation) (b : K) (row : List K) (p : Program K) :
    (p.appendConstraint r b row).n = p.n := rfl

@[simp] theorem m_appendConstraint (r : Relation) (b : K) (row : List K) (p : Program K) :
    (p.appendConstraint r b row).m = p.m + 1 := by
  simp [appendConstraint, appendRow, appendRelation, lowerFlags, m]

end Program

namespace Action
variable {K : Type} [Scalar K]

/-- Adds a variable with its column, one coefficient for each constraint. The coefficient in the
    objective is read last, when the flags are already lowered. -/
def addVariable (coefficient : Except ArgumentFault K) (column : Except ArgumentFault (List K))
    (restriction : Except ArgumentFault Restriction) : Action K Unit := do
  let restriction ← argument restriction
  let column ← argument column
  let p ← program
  if column.length ≠ p.m then throw (.size (.column column.length p.m))
  change (Program.lowerFlags (restriction == .nonNegative))
  let coefficient ← argument coefficient
  change (Program.appendVariable coefficient column restriction)

/-- Adds a constraint with its row, one coefficient for each variable. The right-hand side is read
    last, when the relation is already there. -/
def addConstraint (relation : Except ArgumentFault Relation) (value : Except ArgumentFault K)
    (row : Except ArgumentFault (List K)) : Action K Unit := do
  let relation ← argument relation
  let row ← argument row
  let p ← program
  if row.length ≠ p.n then throw (.size (.row row.length p.n))
  change (Program.appendRelation relation)
  let value ← argument value
  change (Program.appendRow value row)

def setConstant (value : Except ArgumentFault K) : Action K Unit := do
  let value ← argument value
  change fun p => { p with constant := value }

end Action

end Simplex
