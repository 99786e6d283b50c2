import Simplex.Program.Basic
import Simplex.Fault
/-! The basis of a tableau, read off its columns. A variable is basic in a row if its column
    is the unit vector of that row, up to the tolerance; which of them count is said by the
    set of nonbasic variables. -/

namespace Simplex

/-! Sets of indices are increasing lists. Any integer may be in one. -/
namespace IndexSet

def insert (i : Int) : List Int → List Int
  | [] => [i]
  | j :: rest => if i < j then i :: j :: rest else if i = j then j :: rest else j :: insert i rest

def ofList (is : List Int) : List Int := is.foldr insert []

/-- The set after `entering` has left it and `leaving` has come in. -/
def exchange (entering leaving : Int) (is : List Int) : List Int :=
  insert leaving (is.filter (· ≠ entering))

/-- The indices below `n`. -/
def below (n : Nat) : List Int := (List.range n).map Int.ofNat

@[simp] theorem mem_insert {i j : Int} {is : List Int} : i ∈ insert j is ↔ i = j ∨ i ∈ is := by
  induction is with
  | nil => simp [insert]
  | cons k rest ih => grind [insert]

@[simp] theorem mem_ofList {i : Int} {is : List Int} : i ∈ ofList is ↔ i ∈ is := by
  induction is with
  | nil => simp [ofList]
  | cons k rest ih =>
    rw [show ofList (k :: rest) = insert k (ofList rest) from rfl]
    simp [ih]

@[simp] theorem mem_exchange {i entering leaving : Int} {is : List Int} :
    i ∈ exchange entering leaving is ↔ i = leaving ∨ (i ∈ is ∧ i ≠ entering) := by
  simp [exchange]

/-- Insertion keeps the order strict, so a set has one list. -/
theorem pairwise_insert {i : Int} {is : List Int} (h : is.Pairwise (· < ·)) :
    (insert i is).Pairwise (· < ·) := by
  induction is with
  | nil => simp [insert]
  | cons k rest ih => grind [insert, List.pairwise_cons, mem_insert]

end IndexSet

namespace Program
variable {K : Type} [Scalar K]

/-- Is column `j` the unit vector of row `i`? -/
def isUnit (p : Program K) (i j : Nat) : Bool :=
  (List.range p.m).all fun k => Scalar.near p.tolerance (p.entry k j) (if k = i then 1 else 0)

/-- The columns that are the unit vector of row `i`. -/
def unitColumns (p : Program K) (i : Nat) : List Nat := (List.range p.n).filter (p.isUnit i)

/-- The unit columns of row `i` outside the nonbasic variables. -/
def candidates (p : Program K) (nonbasic : List Int) (i : Nat) : List Nat :=
  (p.unitColumns i).filter fun j => !nonbasic.contains (j : Int)

/-- The basic variable of row `i`: the first candidate. -/
def basicVariable (p : Program K) (nonbasic : List Int) (i : Nat) : Except BasisFault Nat :=
  match p.candidates nonbasic i with
  | j :: _ => .ok j
  | [] => .error .rowWithoutBasic

/-- The basic variables of all rows, in row order. -/
def basicVariables (p : Program K) (nonbasic : List Int) : Except BasisFault (List Nat) :=
  (List.range p.m).mapM (p.basicVariable nonbasic)

/-- The row in which variable `j` is basic. -/
def basicRow (p : Program K) (j : Nat) : Except BasisFault Nat :=
  match (List.range p.m).find? fun i =>
      Scalar.near p.tolerance (p.entry i j) 1 && (p.unitColumns i).contains j with
  | some i => .ok i
  | none => .error .notBasic

/-- The variable that leaves the basis at row `i`: the only candidate. -/
def leavingVariable (p : Program K) (nonbasic : List Int) (i : Nat) : Except BasisFault Nat :=
  match p.candidates nonbasic i with
  | [j] => .ok j
  | [] => .error .noLeaving
  | _ => .error .severalLeaving

/-- The point with the given values of the basic variables, all other variables being zero. A
    variable that is basic in several rows has the value of the last of them. -/
def pointOf (n : Nat) (basis : List Nat) (values : List K) : List K :=
  (basis.zip values).foldl (fun x (j, b) => x.set j b) (List.replicate n 0)

/-- The values of all variables when the nonbasic ones are zero. -/
def solution (p : Program K) (nonbasic : List Int) : Except BasisFault (List K) := do
  let basis ← p.basicVariables nonbasic
  return pointOf p.n basis p.rhs

/-- The value of other coefficients and another constant at the point whose nonbasic variables are
    zero. There may be fewer coefficients than variables, but not more. -/
def objectiveValue (p : Program K) (nonbasic : List Int)
    (coefficients : Except ArgumentFault (List K)) (constant : Except ArgumentFault K) :
    Except Fault K := do
  let x ← (p.solution nonbasic).mapError .basis
  let coefficients ← coefficients.mapError .argument
  if p.n < coefficients.length then throw (.argument .malformed)
  let constant ← constant.mapError .argument
  return Scalar.dot coefficients x + constant

end Program

end Simplex
