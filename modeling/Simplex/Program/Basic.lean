import Simplex.Scalar
import Simplex.Text.CodePoint
/-! Linear programs: optimise `c · x + constant` subject to one relation `row · x (=, ≤, ≥) b` per
    row and a restriction per variable. The lists are kept apart, so a program whose parts have come
    out of step is a value like any other. -/

namespace Simplex

/-- The sense of the optimisation. -/
inductive Objective where
  | minimize | maximize
  deriving DecidableEq, Repr, Inhabited

/-- How a row is compared with its right-hand side. -/
inductive Relation where
  | equal | lessEqual | greaterEqual
  deriving DecidableEq, Repr, Inhabited

/-- What values a variable may take. -/
inductive Restriction where
  | nonNegative | unrestricted
  deriving DecidableEq, Repr, Inhabited

/-- The word for an objective. -/
def Objective.word : Objective → String
  | .minimize => "minimize"
  | .maximize => "maximize"

/-- The sign for a relation. -/
def Relation.word : Relation → String
  | .equal => "="
  | .lessEqual => "<="
  | .greaterEqual => ">="

/-- The word for a restriction. -/
def Restriction.word : Restriction → String
  | .nonNegative => "non-negative"
  | .unrestricted => "unrestricted"

/-- The objective that a text names. -/
def Objective.ofText? (t : Text) : Option Objective :=
  [.minimize, .maximize].find? fun w => Text.ofString w.word = t

/-- The relation that a text names. -/
def Relation.ofText? (t : Text) : Option Relation :=
  [.equal, .lessEqual, .greaterEqual].find? fun w => Text.ofString w.word = t

/-- The restriction that a text names. -/
def Restriction.ofText? (t : Text) : Option Restriction :=
  [.nonNegative, .unrestricted].find? fun w => Text.ofString w.word = t

/-- A linear program, which is also a tableau. `standard` records that it maximises, has equalities
    only and non-negative variables only; `simplex` that it has been prepared for the search. -/
structure Program (K : Type) where
  objective : Objective
  costs : List K
  constant : K
  restrictions : List Restriction
  relations : List Relation
  rhs : List K
  rows : List (List K)
  standard : Bool
  simplex : Bool
  tolerance : K

namespace Program
variable {K : Type} [Scalar K]

/-- The program without variables and constraints. -/
def empty (objective : Objective) (tolerance : K) : Program K :=
  { objective, costs := [], constant := 0, restrictions := [], relations := [], rhs := [],
    rows := [], standard := false, simplex := false, tolerance }

/-- Number of variables. -/
def n (p : Program K) : Nat := p.costs.length

/-- Number of constraints. -/
def m (p : Program K) : Nat := p.rhs.length

/-- The coefficients of constraint `i`. -/
def row (p : Program K) (i : Nat) : List K := p.rows.getD i []

/-- The coefficient of variable `j` in constraint `i`. -/
def entry (p : Program K) (i j : Nat) : K := (p.row i).getD j 0

/-- The coefficient of variable `j` in the objective. -/
def cost (p : Program K) (j : Nat) : K := p.costs.getD j 0

/-- The right-hand side of constraint `i`. -/
def value (p : Program K) (i : Nat) : K := p.rhs.getD i 0

/-- The coefficients of variable `j` in all constraints. -/
def column (p : Program K) (j : Nat) : List K := p.rows.map (·.getD j 0)

/-- One line about the program. -/
def summary (p : Program K) : String :=
  s!"LinearProgram({p.objective.word}, n={p.n}, m={p.m})"

/-- The constraints that are complete: a relation, a right-hand side and a row. -/
def constraints (p : Program K) : List (Relation × K × List K) :=
  p.relations.zip (p.rhs.zip p.rows)

end Program

end Simplex
