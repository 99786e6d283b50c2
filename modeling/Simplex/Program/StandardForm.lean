import Simplex.Program.Addition
/-! Standard form: maximise subject to equalities over non-negative variables. A minimum is the
    maximum of the negated objective, an inequality takes a slack variable, and an unrestricted
    variable becomes the difference of two non-negative ones. -/

namespace Simplex

namespace Program
variable {K : Type} [Scalar K]

/-- The program with its objective negated when it minimises. -/
def toMaximize (p : Program K) : Program K :=
  match p.objective with
  | .maximize => p
  | .minimize =>
    { p with objective := .maximize, costs := p.costs.map (- ·), constant := -p.constant }

/-- Negates one constraint. -/
def negateRow (i : Nat) (p : Program K) : Program K :=
  { p with rhs := p.rhs.modify i (- ·), rows := p.rows.modify i (·.map (- ·)) }

/-- Makes constraint `i` an equality; `≥` is negated into `≤` first. -/
def equalize (i : Nat) (p : Program K) : Program K :=
  match p.relations[i]? with
  | some .greaterEqual => { p.negateRow i with relations := p.relations.set i .equal }
  | _ => { p with relations := p.relations.set i .equal }

/-- Makes variable `j` non-negative. -/
def restrict (j : Nat) (p : Program K) : Program K :=
  { p with restrictions := p.restrictions.set j .nonNegative }

/-- Number of constraints that take a slack variable. -/
def slackCount (p : Program K) : Nat := (p.relations.take p.m).countP (· ≠ .equal)

/-- Position of the negative part of variable `j` in the standard form. -/
def negativePart (p : Program K) (j : Nat) : Nat :=
  p.n + p.slackCount + (p.restrictions.take j).count .unrestricted

/-- The point of the program that a point of its standard form stands for. -/
def recover (p : Program K) (y : List K) : List K :=
  p.restrictions.zipIdx.map fun (restriction, j) =>
    match restriction with
    | .nonNegative => y.getD j 0
    | .unrestricted => y.getD j 0 - y.getD (p.negativePart j) 0

end Program

namespace Action
variable {K : Type} [Scalar K]

/-- Makes constraint `i` an equality, and an inequality takes its slack variable. -/
def addSlack (i : Nat) : Action K Unit := do
  let p ← program
  match p.relations[i]? with
  | none => throw .misaligned
  | some .equal => return
  | some _ =>
    change (Program.equalize i)
    addVariable (.ok 0) (.ok (Scalar.unit p.m i)) (.ok .nonNegative)

/-- Splits variable `j` into a difference: its negative part becomes a new last variable. -/
def splitVariable (j : Nat) : Action K Unit := do
  let p ← program
  match p.restrictions[j]? with
  | none => throw .misaligned
  | some .nonNegative => return
  | some .unrestricted =>
    change (Program.restrict j)
    addVariable (.ok (-p.cost j)) (.ok ((p.column j).map (- ·))) (.ok .nonNegative)

/-- Brings the program into standard form. Nothing is done to a program marked as standard. -/
def standardize : Action K Unit := do
  let p ← program
  if p.standard then return
  setProgram p.toMaximize
  (List.range p.m).forM addSlack
  let q ← program
  (List.range q.n).forM splitVariable
  change fun p => { p with standard := true, simplex := false }

end Action

end Simplex
