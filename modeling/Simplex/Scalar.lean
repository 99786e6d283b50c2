/-! The numbers a program is made of. Everything from the model to the two-phase search is written
    over a `Scalar`, so one text runs on binary floating point and is reasoned about over the
    rationals. Tests are `Bool`s because a floating-point comparison may fail in both directions. -/

namespace Simplex

/-- Numbers with the operations and the tests that the search makes. -/
class Scalar (K : Type) extends Zero K, One K, Add K, Sub K, Mul K, Div K, Neg K where
  /-- Absolute value. -/
  abs : K → K
  /-- Strictly less; never true of a value that is not a number. -/
  lt : K → K → Bool
  /-- Less or equal; never true of a value that is not a number. -/
  le : K → K → Bool
  /-- Equal as numbers: the two zeros are equal, and nothing equals a value that is not one. -/
  eq : K → K → Bool
  /-- Strictly below positive infinity, where the scalars have one. -/
  bounded : K → Bool

namespace Scalar
variable {K : Type} [Scalar K]

/-- `a` lies within `tol` of `t`, or is equal to it whatever the tolerance. -/
def near (tol a t : K) : Bool := le (abs (a - t)) tol || eq a t

/-- The value itself, or zero when zero is strictly greater. -/
def clamp (a : K) : K := if lt a 0 then 0 else a

/-- Sum from the left, starting at zero. -/
def sum (xs : List K) : K := xs.foldl (· + ·) 0

/-- Sum of products from the left, starting at zero. -/
def dot (xs ys : List K) : K := sum (List.zipWith (· * ·) xs ys)

/-- The unit vector of length `m` at position `i`. -/
def unit (m i : Nat) : List K := (List.range m).map fun k => if k = i then 1 else 0

end Scalar

instance : Scalar Rat where
  abs a := if a < 0 then -a else a
  lt a b := decide (a < b)
  le a b := decide (a ≤ b)
  eq a b := decide (a = b)
  bounded _ := true
  zero := 0
  one := 1

instance : Scalar Float where
  abs := Float.abs
  lt := Float.lt
  le := Float.le
  eq := Float.beq
  bounded a := Float.lt a (1.0 / 0.0)

end Simplex
