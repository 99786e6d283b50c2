import Simplex.Number.Places
/-! Plain text tables: a line of headings, a line of dashes under every column, and the
    rows. Text goes to the left of its column and numbers to the right, with their
    decimal points in one place. -/

namespace Simplex.Table

/-- What the cells of a column are. -/
inductive Kind where
  | text | integer | decimal
  deriving DecidableEq, Repr

structure Column where
  heading : String
  kind : Kind
  cells : List String

/-- The count of characters after the point; one less than none for a number without a point. -/
def places (cell : String) : Int :=
  match cell.toList.dropWhile (· ≠ '.') with
  | [] => -1
  | _ :: rest => rest.length

/-- Blanks after the numbers bring their points into one place. -/
def alignPoints (cells : List String) : List String :=
  let most := (cells.map places).foldl max (-1)
  cells.map fun cell => cell ++ String.ofList (List.replicate (most - places cell).toNat ' ')

def blanks (count : Nat) : String := String.ofList (List.replicate count ' ')

def padded (kind : Kind) (width : Nat) (cell : String) : String :=
  let gap := blanks (width - cell.length)
  match kind with
  | .text => cell ++ gap
  | _ => gap ++ cell

/-- A column as wide as its widest cell, and at least two blanks wider than its heading: the
    heading, the dashes and the cells. -/
def Column.lines (c : Column) : List String :=
  let cells := if c.kind = .decimal then alignPoints c.cells else c.cells
  let width := (cells.map String.length).foldl max (c.heading.length + 2)
  padded c.kind width c.heading :: String.ofList (List.replicate width '-') ::
    cells.map (padded c.kind width)

/-- The text without the blanks at its end. -/
def trimEnd (s : String) : String :=
  String.ofList ((s.toList.reverse.dropWhile (· == ' ')).reverse)

/-- The lines of a table from those of its columns, which are equally many. -/
def joinColumns : List (List String) → List String
  | [] => []
  | [column] => column
  | column :: rest => List.zipWith (fun a b => a ++ "  " ++ b) column (joinColumns rest)

def render (columns : List Column) : String :=
  "\n".intercalate ((joinColumns (columns.map Column.lines)).map trimEnd)

end Simplex.Table
