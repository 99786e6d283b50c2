import Simplex.Argument.Shown
import Simplex.Number.Numeral
import Simplex.Number.Fraction
import Simplex.Program.Basic
/-! Reading arguments. An argument arrives as a document; a number may be given by its text, and a
    sequence of numbers may be nested as long as its parts have one shape. -/

namespace Simplex.Value

def ofBool (b : Bool) : Float := if b then 1 else 0

/-- The double that a value stands for. -/
def number : Value → Except ArgumentFault Float
  | .bool b => .ok (ofBool b)
  | .int n => match finiteOfInt? n with
    | some x => .ok x
    | none => .error .tooLarge
  | .float x => .ok x
  | .string t => match floatOfText? t with
    | some x => .ok x
    | none => .error .malformed
  | .null | .array _ | .object _ => .error .mistyped

/-- The double that a value adds to another one. A text adds to none. -/
def addend : Value → Except ArgumentFault Float
  | .string _ => .error .mistyped
  | v => v.number

/-- An element of a sequence; an absent one is not a number. -/
def element : Value → Except ArgumentFault Float
  | .null => .ok (0.0 / 0.0)
  | v => v.number

/-- The shape of the items of an array: how many there are, and the shape they share. -/
def commonShape : List (Option (List Nat)) → Option (List Nat)
  | [] => some []
  | first :: rest => if rest.all (· == first) then first else none

mutual

/-- The extents of a nested array, if all its parts at one level have one shape. -/
def shape? : Value → Option (List Nat)
  | .array items => (commonShape (shapes items)).map (items.length :: ·)
  | _ => some []

def shapes : List Value → List (Option (List Nat))
  | [] => []
  | v :: vs => v.shape? :: shapes vs

end

mutual

/-- The values in a nested array that are no arrays, from left to right. -/
def leaves : Value → List Value
  | .array items => leavesOf items
  | v => [v]

def leavesOf : List Value → List Value
  | [] => []
  | v :: vs => v.leaves ++ leavesOf vs

end

/-- How deeply a sequence may be nested. -/
def mostDimensions : Nat := 64

/-- The sequence of numbers that a value stands for: a single number, or a nested array. The shape
    is judged before any of the elements. -/
def sequence (v : Value) : Except ArgumentFault (List Float) :=
  match v.shape? with
  | some extents =>
    if mostDimensions < extents.length then .error .malformed else v.leaves.mapM element
  | none => .error .malformed

/-- A word of a vocabulary. -/
def wordOf {α : Type} (vocabulary : Vocabulary) (ofText? : Text → Option α) (v : Value) :
    Except ArgumentFault α :=
  let found := match v with
    | .string t => ofText? t
    | _ => none
  match found with
  | some a => .ok a
  | none => .error (.unknownWord v.shown vocabulary)

def objective : Value → Except ArgumentFault Objective := wordOf .objective Objective.ofText?

def relation : Value → Except ArgumentFault Relation := wordOf .relation Relation.ofText?

def restriction : Value → Except ArgumentFault Restriction :=
  wordOf .restriction Restriction.ofText?

/-- Which vocabularies have the value as a word: objectives, relations, restrictions. Containers are
    no candidates. -/
def vocabularies : Value → Except ArgumentFault (Bool × Bool × Bool)
  | .string t =>
    .ok ((Objective.ofText? t).isSome, (Relation.ofText? t).isSome, (Restriction.ofText? t).isSome)
  | .array _ | .object _ => .error .mistyped
  | _ => .ok (false, false, false)

/-- A number of any kind as a fraction with at most `digits` digits; an absent one is zero. A text
    is taken at its exact value, and its runs of digits are limited. -/
def limitedFraction (digits : Int) : Value → Except ArgumentFault Rat
  | .null => .ok 0
  | .float x => Fraction.limitedFloat digits x
  | .bool b => Fraction.limitedFloat digits (ofBool b)
  | .int n => match finiteOfInt? n with
    | some x => Fraction.limited digits n (Binary.ofFloat x).toRat?
    | none => .error .tooLarge
  | .string t => match Numeral.ofText? t with
    | some x =>
      let double? := (Binary.ofFloat x.toFloat).toRat?
      if Fraction.isSmall double? then .ok 0
      else if 4300 < x.longestRun then .error .malformed
      else Fraction.limited digits x.toRat double?
    | none => .error .malformed
  | .array _ | .object _ => .error .mistyped

/-- A value as a short fraction or with a number of places; what is no number is left as it is. -/
def fractionText (digits : Int) (forcePlaces : Bool) (v : Value) : Text :=
  let converted := v.number.bind fun x =>
    if forcePlaces then Fraction.placesText digits x else Fraction.ofFloat digits x
  match converted with
  | .ok s => Text.ofString s
  | .error _ => v.asText

end Simplex.Value
