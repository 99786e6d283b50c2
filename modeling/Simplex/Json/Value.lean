import Simplex.Text.CodePoint
/-! JSON documents. Integers are unbounded and kept apart from doubles, and the members of an object
    keep the order of their first appearance. -/

namespace Simplex

/-- A JSON document. -/
inductive Value where
  | null
  | bool (b : Bool)
  | int (n : Int)
  | float (x : Float)
  | string (t : Text)
  | array (items : List Value)
  | object (members : List (Text × Value))
  deriving Inhabited

namespace Value

/-- The value under a name. -/
def lookup (name : Text) : List (Text × Value) → Option Value
  | [] => none
  | (k, v) :: rest => if k = name then some v else lookup name rest

/-- Gives a name a value: in its place if the name is there, at the end otherwise. -/
def assign (name : Text) (value : Value) : List (Text × Value) → List (Text × Value)
  | [] => [(name, value)]
  | (k, v) :: rest => if k = name then (k, value) :: rest else (k, v) :: assign name value rest

/-- The value of a member of an object. -/
def get? (v : Value) (name : String) : Option Value :=
  match v with
  | .object members => lookup (Text.ofString name) members
  | _ => none

def ofString (s : String) : Value := .string (Text.ofString s)

def ofMembers (members : List (String × Value)) : Value :=
  .object (members.map fun (k, v) => (Text.ofString k, v))

end Value

end Simplex
