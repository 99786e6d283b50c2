import Simplex.Session
import Simplex.Scalar
/-! Snapshots. A snapshot is the program itself at a moment; it can be put back, or a new program
    can be made of it with some of its parts replaced. -/

namespace Simplex

/-- Replacements for parts of a snapshot. -/
structure Changes (K : Type) where
  objective : Option (Except ArgumentFault Objective) := none
  tolerance : Option (Except ArgumentFault K) := none
  costs : Option (Except ArgumentFault (List K)) := none
  constant : Option (Except ArgumentFault K) := none
  standard : Option Bool := none
  simplex : Option Bool := none

namespace Changes
variable {K : Type} [Scalar K]

/-- The program of a snapshot with the replacements made. The rows must fit the new objective, which
    any objective does where there are no rows. -/
def apply (c : Changes K) (p : Program K) : Except ArgumentFault (Program K) := do
  let objective ← c.objective.getD (.ok p.objective)
  let tolerance ← c.tolerance.getD (.ok p.tolerance)
  let costs ← c.costs.getD (.ok p.costs)
  let constant ← c.constant.getD (.ok p.constant)
  if p.m * costs.length ≠ p.m * p.n then throw .malformed
  return { p with
    objective, tolerance, costs, constant
    standard := c.standard.getD p.standard
    simplex := c.simplex.getD p.simplex }

end Changes

namespace Action
variable {K : Type} [Scalar K]

/-- The snapshot under a name. -/
def snapshot (name : String) : Action K (Program K) := fun s =>
  match s.snapshots.find? (·.1 == name) with
  | some (_, p) => .ok p s
  | none => .error .unknownName s

/-- Keeps the program under a name. -/
def takeSnapshot (name : String) : Action K Unit := fun s =>
  .ok () { s with snapshots := (name, s.program) :: s.snapshots }

/-- Puts a snapshot back. -/
def restore (name : String) : Action K Unit := do
  setProgram (← snapshot name)

/-- Goes on with a program made of a snapshot. -/
def fork (name : String) (changes : Changes K) : Action K Unit := do
  setProgram (← argument (changes.apply (← snapshot name)))

end Action

end Simplex
