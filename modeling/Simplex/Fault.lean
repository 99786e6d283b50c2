import Simplex.Codec.Fault
/-! Everything an operation can fail with, by cause. An argument can be wrong on its own,
    before it meets a program. -/

namespace Simplex

/-- The kinds of word an argument can name. -/
inductive Vocabulary where
  | objective | relation | restriction
  deriving DecidableEq, Repr

/-- The name of a vocabulary in messages. -/
def Vocabulary.name : Vocabulary → String
  | .objective => "ObjectiveType"
  | .relation => "ConstraintType"
  | .restriction => "RestrictionType"

/-- Why an argument cannot be read. -/
inductive ArgumentFault where
  /-- The argument, shown as text, is no word of the vocabulary. -/
  | unknownWord (shown : String) (vocabulary : Vocabulary)
  /-- Of the right kind, but without the value that is asked for. -/
  | malformed
  /-- Of a kind that has no such value. -/
  | mistyped
  /-- Beyond the range of doubles. -/
  | tooLarge
  deriving DecidableEq, Repr

/-- The message, where the fault has one of its own. -/
def ArgumentFault.message? : ArgumentFault → Option String
  | .unknownWord shown vocabulary => some s!"{shown} is not a valid {vocabulary.name}"
  | _ => none

/-- A count or an index that does not fit the shape of the program. -/
inductive SizeFault where
  /-- A new column of the given length where there are `m` constraints. -/
  | column (length m : Nat)
  /-- A new row of the given length where there are `n` variables. -/
  | row (length n : Nat)
  | noConstraint (index : Int) (m : Nat)
  | noVariable (index : Int) (n : Nat)
  deriving DecidableEq, Repr

def SizeFault.message : SizeFault → String
  | .column length m =>
    s!"Cannot add variable with {length} constraints to program with {m} constraints"
  | .row length n => s!"Cannot add constraint with {length} variables to program with {n} variables"
  | .noConstraint index m =>
    s!"Constraint at index {index} is undefined in program with {m} constraints"
  | .noVariable index n => s!"Variable at index {index} is undefined in program with {n} variables"

/-- A tableau whose columns do not hold the basis that is asked for. -/
inductive BasisFault where
  | notPrepared
  /-- A row has no basic variable. -/
  | rowWithoutBasic
  /-- A variable is basic in no row. -/
  | notBasic
  | noLeaving
  | severalLeaving
  /-- The entering variable is a basic one. -/
  | enteringBasic
  /-- The variable that takes the place of an artificial one is basic already. -/
  | replacementBasic
  deriving DecidableEq, Repr

def BasisFault.message : BasisFault → String
  | .notPrepared => "Program is not in simplex form"
  | .rowWithoutBasic => "No basis variable found for constraint"
  | .notBasic => "Non zero variable is not a basic variable"
  | .noLeaving => "No leaving variable found"
  | .severalLeaving => "Multiple leaving variables found"
  | .enteringBasic => "Pivot column is not zero variable"
  | .replacementBasic => "Pivot variable is not a zero variable"

/-- Why an operation has failed. -/
inductive Fault where
  | size (fault : SizeFault)
  | basis (fault : BasisFault)
  | argument (fault : ArgumentFault)
  /-- A stored program that describes none, with what was read of it. -/
  | document (fault : DocumentFault) (read : Value)
  /-- A stored program that nests too deeply to be read. -/
  | tooDeep
  /-- A name under which nothing is stored. -/
  | unknownName
  /-- A variable without a restriction, or a constraint without a relation. -/
  | misaligned
  /-- The search has made as many steps as it was allowed. -/
  | outOfSteps

end Simplex
