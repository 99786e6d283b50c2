import Simplex.Program.Addition
import Simplex.Json.Writer
/-! Programs as documents. A document holds the data of a program, and neither its flags nor its
    tolerance. A draft holds the same data, in the order in which a program is put together. -/

namespace Simplex

/-- The number as it is stored: both zeros are stored as the positive one. -/
def storedZero (x : Float) : Float := if x == 0 then 0 else x

namespace Program

def numbersValue (xs : List Float) : Value := .array (xs.map fun x => .float (storedZero x))

/-- The document of one constraint. -/
def constraintValue : Relation × Float × List Float → Value
  | (relation, value, row) => .ofMembers
    [("type", .ofString relation.word), ("value", .float (storedZero value)),
      ("coefficients", numbersValue row)]

/-- The document of a program. -/
def toValue (p : Program Float) : Value := .ofMembers
  [("objectiveType", .ofString p.objective.word),
    ("coefficients", numbersValue p.costs),
    ("restrictions", .array (p.restrictions.map fun r => .ofString r.word)),
    ("constraints", .array (p.constraints.map constraintValue)),
    ("constant", .float (storedZero p.constant))]

/-- The stored text of a program. -/
def storedText (p : Program Float) : String := Json.indentedText p.toValue

end Program

/-- What a document says about a program. -/
structure Draft (K : Type) where
  objective : Objective
  unknowns : List (K × Restriction)
  constraints : List (Relation × K × List K)
  constant : K

namespace Draft
variable {K : Type} [Scalar K]

/-- The program of a draft: its variables are added first, then its constraints. -/
def program (tolerance : K) (d : Draft K) : Program K :=
  let bare : Program K := d.unknowns.foldl
    (fun p (c, r) => Program.appendVariable c [] r p) (Program.empty d.objective tolerance)
  let full : Program K := d.constraints.foldl
    (fun p (relation, b, row) => Program.appendConstraint relation b row p) bare
  { full with constant := d.constant }

end Draft

end Simplex
