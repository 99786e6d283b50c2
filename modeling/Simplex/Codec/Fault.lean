import Simplex.Json.Value
/-! What can be wrong with a stored program. A fault carries whatever was read of the document. -/

namespace Simplex

/-- Why a text is not read as a document. -/
inductive UnreadCause where
  /-- The text is no document. -/
  | notADocument
  /-- There is no text but some other value. -/
  | notAText
  /-- The document holds an integer that is too long to be read. -/
  | longInteger
  deriving DecidableEq, Repr

/-- The fields of a stored program. -/
inductive Field where
  | objective | coefficients | restrictions | constraints | constant
  deriving DecidableEq, Repr

namespace Field

/-- The name of the field in a document. -/
def key : Field → String
  | .objective => "objectiveType"
  | .coefficients => "coefficients"
  | .restrictions => "restrictions"
  | .constraints => "constraints"
  | .constant => "constant"

/-- The name of the field in a message. -/
def label : Field → String
  | .objective => "objective type"
  | .coefficients => "coefficients"
  | .restrictions => "restrictions"
  | .constraints => "constraints"
  | .constant => "constant"

/-- All fields, in the order in which they are looked for. -/
def all : List Field := [.objective, .coefficients, .restrictions, .constraints, .constant]

end Field

/-- What is wrong with one stored constraint. -/
inductive ConstraintFault where
  | isNull | notAnObject
  | typeMissing | typeNotAString | typeInvalid
  | valueMissing | valueNotANumber
  | coefficientsMissing | coefficientsNotAnArray | coefficientsNotNumbers | coefficientCount
  deriving DecidableEq, Repr

def ConstraintFault.message (i : Nat) : ConstraintFault → String
  | .isNull => s!"Constraint at index {i} is null"
  | .notAnObject => s!"Constraint at index {i} is not an object"
  | .typeMissing => s!"Missing type in constraint at index {i}"
  | .typeNotAString => s!"Type in constraint at index {i} is not a string"
  | .typeInvalid => s!"Invalid type in constraint at index {i}"
  | .valueMissing => s!"Missing value in constraint at index {i}"
  | .valueNotANumber => s!"Value in constraint at index {i} is not a number"
  | .coefficientsMissing => s!"Missing coefficients in constraint at index {i}"
  | .coefficientsNotAnArray => s!"Coefficients in constraint at index {i} is not an array"
  | .coefficientsNotNumbers => s!"Some coefficients in constraint at index {i} are not numbers"
  | .coefficientCount => s!"Constraint at index {i} has different number of coefficients"

/-- What is wrong with a stored program. -/
inductive DocumentFault where
  | unread (cause : UnreadCause)
  | isNull | notAnObject
  | missing (field : Field)
  | objectiveNotAString | objectiveInvalid
  | coefficientsNotAnArray | coefficientsNotNumbers
  | restrictionsNotAnArray | restrictionsNotStrings | restrictionsInvalid | restrictionCount
  | constraintsNotAnArray
  | constraint (index : Nat) (fault : ConstraintFault)
  | constantNotANumber
  deriving DecidableEq, Repr

def DocumentFault.message : DocumentFault → String
  | .unread _ => "Data is not valid JSON"
  | .isNull => "Data is null"
  | .notAnObject => "Data is not an object"
  | .missing field => s!"Missing {field.label}"
  | .objectiveNotAString => "Objective type is not a string"
  | .objectiveInvalid => "Invalid objective type"
  | .coefficientsNotAnArray => "Coefficients is not an array"
  | .coefficientsNotNumbers => "Some coefficients are not numbers"
  | .restrictionsNotAnArray => "Restrictions is not an array"
  | .restrictionsNotStrings => "Some restrictions are not strings"
  | .restrictionsInvalid => "Some restrictions are not valid"
  | .restrictionCount => "Coefficients and restrictions have different lengths"
  | .constraintsNotAnArray => "Constraints is not an array"
  | .constraint i fault => fault.message i
  | .constantNotANumber => "Constant is not a number"

end Simplex
