import Simplex.Tableau.Table
import Simplex.Number.Fraction
import Simplex.Session
/-! A tableau as text, and the lines of the journal. The first row is the objective, then there is
    one row per constraint with its relation before the right-hand side. -/

namespace Simplex

/-- How the numbers of a tableau are written: with four places, or as fractions with at most the
    given count of digits. -/
inductive CellStyle where
  | decimals
  | fractions (digits : Int)
  deriving DecidableEq, Repr

namespace CellStyle

/-- The text of a number. -/
def cell : CellStyle → Float → Except ArgumentFault String
  | .decimals, x => .ok (fixedText 4 x)
  | .fractions digits, x => Fraction.text <$> Fraction.limitedFloat digits x

/-- What a column of numbers holds. A column with a proper fraction holds text. -/
def kindOf : CellStyle → List String → Table.Kind
  | .decimals, _ => .decimal
  | .fractions _, cells => if cells.any (·.contains '/') then .text else .integer

end CellStyle

namespace Program

/-- The rows of a tableau: the objective first, and the constant beside the right-hand sides. -/
def tableauRows (p : Program Float) : List (List Float × Float) :=
  (p.costs, p.constant) :: p.rows.zip p.rhs

/-- The tableau as text. -/
def tableauText (style : CellStyle) (p : Program Float) : Except ArgumentFault String := do
  let rows ← p.tableauRows.mapM fun (coefficients, value) => do
    return (← coefficients.mapM style.cell, ← style.cell value)
  let numbers := fun (heading : String) (cells : List String) =>
    ({ heading, kind := style.kindOf cells, cells } : Table.Column)
  let labels := "z" :: (List.range p.m).map fun i => s!"R{i + 1}"
  let relations := "" :: (p.relations.take p.m).map Relation.word
  return Table.render <|
    [{ heading := "", kind := .text, cells := labels }] ++
    (List.range p.n).map (fun j => numbers s!"x{j + 1}" (rows.map fun row => row.1.getD j "")) ++
    [{ heading := "", kind := .text, cells := relations }, numbers "RHS" (rows.map (·.2))]

/-- The tableau with four places. -/
def decimalTableau (p : Program Float) : String :=
  match p.tableauText .decimals with
  | .ok text => text
  | .error _ => ""

end Program

/-- How much of the journal is shown. -/
inductive Level where
  | info | debug
  deriving DecidableEq, Repr

def Outcome.word : Outcome → String
  | .optimal _ => "optimal"
  | .unbounded => "unbounded"
  | .infeasible => "infeasible"

namespace Event

/-- The line of an event in the log, and the level from which on it is shown. -/
def line? : Event Float → Option (Level × String)
  | .pivoted .. => none
  | .firstPhase objective => some (.info, s!"INFO Phase 1 objective: {generalText objective}")
  | .positiveArtificial j =>
    some (.info, s!"INFO Artificial variable x{j + 1} is still positive after phase 1")
  | .retry ended =>
    some (.info, s!"INFO Phase 1 with absolute column weights ended {ended.word}; " ++
      "retrying with signed weights")
  | .redundant count => some (.info, s!"INFO Removing {count} redundant constraints")
  | .secondPhase m n =>
    some (.info, s!"INFO Phase 2 starts with {m} constraints and {n} variables")
  | .exchanged row entering leaving after =>
    some (.debug, s!"DEBUG Pivot on row {row}: x{entering + 1} enters, x{leaving + 1} leaves\n" ++
      after.decimalTableau)

/-- The warning that an event gives. -/
def warning? : Event Float → Option String
  | .pivoted a true r s => some (s!"Small pivot element {scientificText 2 a} at ({r}, {s}) " ++
      "may cause numerical instability.")
  | _ => none

end Event

/-- The lines that a log of the given level shows, in the order of the events. -/
def logLines (level : Level) (events : List (Event Float)) : List String :=
  events.filterMap fun e => e.line?.bind fun (of, line) =>
    if of = .info ∨ level = .debug then some line else none

end Simplex
