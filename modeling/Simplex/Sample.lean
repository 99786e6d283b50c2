import Simplex.Program.Addition
import Simplex.Tableau.TwoPhase
import Simplex.Tableau.Display
import Simplex.Codec.Decode
/-! Small programs, and what solving one of them prints. -/

namespace Simplex.Sample

/-- A program over non-negative variables with an upper bound for each of its rows. -/
def bounded (objective : Objective) (costs : List Float) (rows : List (List Float × Float)) :
    Program Float :=
  Draft.program Program.defaultTolerance
    { objective
      unknowns := costs.map fun c => (c, .nonNegative)
      constraints := rows.map fun (row, b) => (.lessEqual, b, row)
      constant := 0 }

/-- Three variables: the least of `-2x - 3y - 4z` under three bounds. -/
def threeVariables : Program Float :=
  bounded .minimize [-2, -3, -4] [([1, 1, 1], 6), ([2, 1, 0], 4), ([0, 1, 3], 7)]

/-- Two variables: the least of `-3x - 5y` under three bounds, which is `-36` at `(2, 6)`. -/
def twoVariables : Program Float :=
  bounded .minimize [-3, -5] [([1, 0], 4), ([0, 2], 12), ([3, 2], 18)]

/-- One bound: the greatest of `2x + 3y` with `x + y ≤ 4`, which is `12`. -/
def oneBound : Program Float := bounded .maximize [2, 3] [([1, 1], 4)]

/-- A set of indices in braces. -/
def setText (is : List Int) : String :=
  "frozenset(\x7b" ++ ", ".intercalate (is.map toString) ++ "\x7d)"

/-- What solving a program prints: the nonbasic variables, the last tableau
    and the optimal value. -/
def report (limit : Nat) (p : Program Float) : String :=
  match Action.solve limit (Session.start p) with
  | .ok (.optimal nonbasic) after =>
    s!"Non-basic variables: {setText nonbasic}\n{after.program.decimalTableau}\n" ++
      s!"Optimal value: {floatText after.program.constant}\n"
  | .ok outcome after =>
    s!"Non-basic variables: {outcome.word}\n{after.program.decimalTableau}\n" ++
      s!"Optimal value: {floatText after.program.constant}\n"
  | .error _ _ => ""

end Simplex.Sample
