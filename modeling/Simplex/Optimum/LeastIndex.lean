import Simplex.Optimum.Problem
import Simplex.Tableau.TwoPhase
/-! A second search, which knows its basis. Of the rows with the least ratio, the one whose basic
    variable has the least index gives it up, so that no basis comes back and the search ends. Its
    first phase works on the sum of the artificial variables alone. -/

namespace Simplex

/-- A tableau with the basic variable of each of its rows. -/
structure BasicTableau (K : Type) where
  program : Program K
  basis : List Nat

/-- How the second search ends; it may also use up its steps. -/
inductive Ending (K : Type) where
  | optimal (t : BasicTableau K)
  | unbounded
  | outOfSteps

namespace BasicTableau
variable {K : Type} [Scalar K]

/-- Takes row `i` if its ratio is less than the best so far, or equal to it with a lesser basic
    variable. -/
def betterRow (t : BasicTableau K) (entering : Nat) (best : Option (Nat × K)) (i : Nat) :
    Option (Nat × K) :=
  match t.program.ratio? entering i, best with
  | none, _ => best
  | some r, none => some (i, r)
  | some r, some (k, least) =>
    if Scalar.lt r least ||
      (Scalar.eq r least && t.basis.getD i 0 < t.basis.getD k 0) then some (i, r)
    else best

/-- The row whose basic variable leaves. -/
def leavingRow? (t : BasicTableau K) (entering : Nat) : Option Nat :=
  ((List.range t.program.m).foldl (t.betterRow entering) none).map (·.1)

/-- Brings variable `j` into the basis at row `i`. -/
def exchange (i j : Nat) (t : BasicTableau K) : BasicTableau K :=
  ⟨t.program.pivot i j, t.basis.set i j⟩

def search : Nat → BasicTableau K → Ending K
  | 0, _ => .outOfSteps
  | limit + 1, t =>
    match t.program.entering? with
    | none => .optimal t
    | some j =>
      match t.leavingRow? j with
      | none => .unbounded
      | some i => search limit (t.exchange i j)

/-- Brings a structural variable into the basis at every row among the given ones that has an
    artificial one there. The rows that offer none come back. -/
def replaceArtificials (structural : Nat) : List Nat → BasicTableau K → BasicTableau K × List Nat
  | [], t => (t, [])
  | i :: rows, t =>
    if t.basis.getD i 0 < structural then t.replaceArtificials structural rows
    else
      match t.program.replacement? structural i with
      | some j => (t.exchange i j).replaceArtificials structural rows
      | none =>
        let (t, redundant) := t.replaceArtificials structural rows
        (t, i :: redundant)

/-- The tableau without artificial variables and redundant rows, for the objective of `standard`. -/
def secondPhase (standard : Program K) (t : BasicTableau K) : BasicTableau K :=
  let (t, redundant) := t.replaceArtificials standard.n (List.range t.program.m)
  let basis := dropPositions redundant t.basis
  ⟨(t.program.strip standard.n redundant).withObjective standard basis, basis⟩

/-- The point of the basis. -/
def point (t : BasicTableau K) : List K := Program.pointOf t.program.n t.basis t.program.rhs

end BasicTableau

namespace Program
variable {K : Type} [Scalar K]

/-- The tableau of the first phase, with the artificial variables for its basis. -/
def firstTableau (standard : Program K) : BasicTableau K :=
  ⟨((Action.prepare false).after (Session.start standard)).program,
    (List.range standard.m).map (standard.n + ·)⟩

/-- An optimal point of a program in standard form, if the two searches end. -/
def optimalPoint? (limit : Nat) (standard : Program K) : Option (Except NoOptimum (List K)) :=
  match standard.firstTableau.search limit with
  | .optimal t =>
    if Scalar.lt t.program.constant 0 then some (.error .infeasible)
    else
      match (t.secondPhase standard).search limit with
      | .optimal t => some (.ok t.point)
      | .unbounded => some (.error .unbounded)
      | .outOfSteps => none
  | _ => none

end Program

namespace Problem
variable {K : Type} [Scalar K]

/-- The problem as a program to be minimised. -/
def toProgram (q : Problem K) : Program K :=
  { objective := .minimize
    costs := q.costs
    constant := 0
    restrictions := q.restrictions
    relations := q.upper.map (fun _ => .lessEqual) ++ q.equal.map (fun _ => .equal)
    rhs := q.upper.map (·.2) ++ q.equal.map (·.2)
    rows := q.upper.map (·.1) ++ q.equal.map (·.1)
    standard := false
    simplex := false
    tolerance := 0 }

/-- Solves the problem, if neither search needs more than `limit` steps. -/
def solve? (limit : Nat) (q : Problem K) : Option (Answer K) :=
  let p := q.toProgram
  let standard := (Action.standardize.after (Session.start p)).program
  (standard.optimalPoint? limit).map fun
    | .ok y =>
      let x := p.recover y
      .optimum x (Scalar.dot q.costs x)
    | .error .infeasible => .infeasible
    | .error .unbounded => .unbounded

end Problem

end Simplex
