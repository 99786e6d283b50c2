import Simplex.Codec.Encode
import Simplex.Json.Reader
import Simplex.Number.Binary
/-! Programs from documents. The fields are checked in a fixed order, each as a whole before the
    next, and the first fault ends the reading. -/

namespace Simplex

namespace Decode

/-- The number in a document. A truth value is none, and an integer is one
    if a double is near it. -/
def number? : Value → Option Float
  | .int n => finiteOfInt? n
  | .float x => some x
  | _ => none

def text? : Value → Option Text
  | .string t => some t
  | _ => none

/-- Takes a fact or fails with the given fault. -/
def require {α ε : Type} (e : ε) : Option α → Except ε α
  | some a => .ok a
  | none => .error e

def field (v : Value) (f : Field) : Value := (v.get? f.key).getD .null

/-- The items of an array under a test of all of them. -/
def items {α ε : Type} (notAnArray notAll : ε) (of? : Value → Option α) : Value → Except ε (List α)
  | .array vs => require notAll (vs.mapM of?)
  | _ => .error notAnArray

def objective (v : Value) : Except DocumentFault Objective := do
  let t ← require .objectiveNotAString (text? v)
  require .objectiveInvalid (Objective.ofText? t)

def restrictions (v : Value) : Except DocumentFault (List Restriction) := do
  let ts ← items .restrictionsNotAnArray .restrictionsNotStrings text? v
  require .restrictionsInvalid (ts.mapM Restriction.ofText?)

/-- One constraint over `n` variables. -/
def constraint (n : Nat) (v : Value) : Except ConstraintFault (Relation × Float × List Float) := do
  match v with
  | .null => throw .isNull
  | .object _ => pure ()
  | _ => throw .notAnObject
  let kind ← require .typeMissing (v.get? "type")
  let t ← require .typeNotAString (text? kind)
  let relation ← require .typeInvalid (Relation.ofText? t)
  let value ← require .valueMissing (v.get? "value")
  let b ← require .valueNotANumber (number? value)
  let coefficients ← require .coefficientsMissing (v.get? "coefficients")
  let row ← items .coefficientsNotAnArray .coefficientsNotNumbers number? coefficients
  if row.length ≠ n then throw .coefficientCount
  return (relation, b, row)

/-- The constraints from position `i` on. -/
def constraints (n : Nat) :
    Nat → List Value → Except DocumentFault (List (Relation × Float × List Float))
  | _, [] => .ok []
  | i, v :: vs => do
    let c ← (constraint n v).mapError (.constraint i)
    let cs ← constraints n (i + 1) vs
    return c :: cs

/-- The draft in a document. -/
def draft (v : Value) : Except DocumentFault (Draft Float) := do
  match v with
  | .null => throw .isNull
  | .object _ => pure ()
  | _ => throw .notAnObject
  match Field.all.find? fun f => (v.get? f.key).isNone with
  | some f => throw (.missing f)
  | none => pure ()
  let objective ← objective (field v .objective)
  let costs ← items .coefficientsNotAnArray .coefficientsNotNumbers number? (field v .coefficients)
  let restrictions ← restrictions (field v .restrictions)
  if costs.length ≠ restrictions.length then throw .restrictionCount
  let constraints ← match field v .constraints with
    | .array vs => constraints costs.length 0 vs
    | _ => throw .constraintsNotAnArray
  let constant ← require .constantNotANumber (number? (field v .constant))
  return { objective, unknowns := costs.zip restrictions, constraints, constant }

/-- The fault of a text that is not read. -/
def readFault : Json.ReadFault → Fault
  | .malformed => .document (.unread .notADocument) .null
  | .longInteger => .document (.unread .longInteger) .null
  | .tooDeep => .tooDeep

end Decode

namespace Program

/-- The tolerance of a program that is given none. -/
def defaultTolerance : Float := 1e-10

/-- A program from its document. The tolerance is looked at when the document
    is found to be valid. -/
def ofValue (tolerance : Except ArgumentFault Float) (v : Value) :
    Except Fault (Program Float) := do
  let draft ← (Decode.draft v).mapError (.document · v)
  let tolerance ← tolerance.mapError .argument
  return draft.program tolerance

/-- A program from its stored text, which may turn out to be no text. -/
def ofStored (tolerance : Except ArgumentFault Float) (source : Value) :
    Except Fault (Program Float) :=
  match source with
  | .string t =>
    match Json.read Json.mostLevels t with
    | .ok v => ofValue tolerance v
    | .error e => .error (Decode.readFault e)
  | _ => .error (.document (.unread .notAText) .null)

end Program

end Simplex
