/-! Doubles as exact numbers. `Binary.ofFloat` takes a double apart into a sign and `m · 2 ^ q`, and
    `Binary.nearest` puts the double nearest to a quotient together; a tie goes to the even
    neighbour in both directions of rounding. -/

namespace Simplex

def pow2 (k : Nat) : Nat := Nat.pow 2 k

def pow10 (k : Nat) : Nat := Nat.pow 10 k

/-- The quotient of two naturals rounded to the nearest natural, a half to the even one. -/
def roundEven (num den : Nat) : Nat :=
  let k := num / den
  let r := 2 * (num % den)
  if r < den then k else if den < r then k + 1 else k + k % 2

/-- What a double stands for: a finite number `± m · 2 ^ q`, an infinity, or no number. -/
inductive Binary where
  | finite (negative : Bool) (m : Nat) (q : Int)
  | infinite (negative : Bool)
  | nan
  deriving DecidableEq, Repr, Inhabited

namespace Binary

def ofFloat (x : Float) : Binary :=
  let bits := x.toBits.toNat
  let negative := bits / pow2 63 == 1
  let exponent : Nat := bits / pow2 52 % pow2 11
  let fraction : Nat := bits % pow2 52
  if exponent = 2047 then
    if fraction = 0 then .infinite negative else .nan
  else if exponent = 0 then .finite negative fraction (-1074)
  else .finite negative (fraction + pow2 52) ((exponent : Int) - 1075)

/-- `m · 2 ^ q` as a numerator. -/
def num (m : Nat) (q : Int) : Nat := m * pow2 q.toNat

/-- The denominator of `m · 2 ^ q`, a power of two. -/
def den (q : Int) : Nat := pow2 (-q).toNat

/-- The exact value of a finite double. -/
def toRat? : Binary → Option Rat
  | .finite negative m q =>
    let r := mkRat (num m q) (den q)
    some (if negative then -r else r)
  | _ => none

/-- The exponent `e` with `2 ^ e ≤ num / den < 2 ^ (e + 1)`, for a positive quotient. -/
def log2Quotient (num den : Nat) : Int :=
  let e : Int := (num.log2 : Int) - den.log2
  if num * pow2 (-e).toNat < den * pow2 e.toNat then e - 1 else e

/-- The double nearest to `± num / den`; beyond the largest one it is an infinity. The exponent and
    the fraction field of a double count together, so a carry out of the fraction needs no case. -/
def nearest (negative : Bool) (num den : Nat) : Float :=
  let magnitude :=
    if num = 0 then 0
    else
      let q := max (log2Quotient num den - 52) (-1074)
      let k := roundEven (num * pow2 (-q).toNat) (den * pow2 q.toNat)
      min ((q + 1074).toNat * pow2 52 + k) (2047 * pow2 52)
  Float.ofBits (UInt64.ofNat (magnitude + if negative then pow2 63 else 0))

def nearestRat (r : Rat) : Float := nearest (decide (r.num < 0)) r.num.natAbs r.den

end Binary

/-- The double nearest to an integer, unless it is beyond the range of doubles. -/
def finiteOfInt? (n : Int) : Option Float :=
  let x := Binary.nearest (decide (n < 0)) n.natAbs 1
  if x.isInf then none else some x

end Simplex
