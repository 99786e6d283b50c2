import Simplex.Number.Binary
import Simplex.Text.CodePoint
/-! The fewest digits that name a double. A decimal names a double when it lies in the interval of
    reals that round to it; among the decimals with the fewest digits the nearest is taken. -/

namespace Simplex

/-- A positive decimal `0.d₁d₂… · 10 ^ point`, its digits being those of `digits`. -/
structure Decimal where
  digits : Nat
  point : Int
  deriving DecidableEq, Repr, Inhabited

namespace Decimal

/-- Number of decimal digits; zero has one. -/
def width (n : Nat) : Nat := (Nat.toDigits 10 n).length

/-- The position of the point of a positive quotient: the `s` with
    `10 ^ (s - 1) ≤ num / den < 10 ^ s`. -/
def pointOf (num den : Nat) : Int :=
  if den ≤ num then width (num / den) else 1 - width ((den - 1) / num)

/-- The interval of reals that round to `m · 2 ^ q`, its ends in quarters of `2 ^ q`. The lower end
    is nearer where the exponent changes. -/
def bounds (m : Nat) (q : Int) : Nat × Nat :=
  (if m = pow2 52 ∧ q ≠ -1074 then 4 * m - 1 else 4 * m - 2, 4 * m + 2)

/-- Does `d · 10 ^ p` round to `m · 2 ^ q`? The ends of the interval do when `m` is even. -/
def rounds (m : Nat) (q : Int) (d : Nat) (p : Int) : Bool :=
  -- both sides in quarters of 2 ^ q, and no negative powers
  let scaled := d * pow10 p.toNat * pow2 (2 - q).toNat
  let unit := pow10 (-p).toNat * pow2 (q - 2).toNat
  let (low, high) := bounds m q
  if m % 2 = 0 then low * unit ≤ scaled && scaled ≤ high * unit
  else low * unit < scaled && scaled < high * unit

/-- The decimal with `k` digits that names `m · 2 ^ q` and is nearest to it, if there is one. -/
def named? (m : Nat) (q : Int) (point : Int) (k : Nat) : Option (Nat × Int) :=
  let p := point - k
  let num := Binary.num m q * pow10 (-p).toNat
  let den := Binary.den q * pow10 p.toNat
  let low := num / den
  let nearer := roundEven num den
  let other := if nearer = low then low + 1 else low
  if rounds m q nearer p then some (nearer, p)
  else if rounds m q other p then some (other, p)
  else none

/-- The digits without the zeros they end in. -/
def stripZeros : Nat → Nat → Nat
  | 0, n => n
  | fuel + 1, n => if n ≠ 0 ∧ n % 10 = 0 then stripZeros fuel (n / 10) else n

/-- The shortest decimal that names `m · 2 ^ q`, for a positive `m`. Seventeen digits always do. -/
def shortest (m : Nat) (q : Int) : Decimal :=
  let point := pointOf (Binary.num m q) (Binary.den q)
  let found := ((List.range 17).findSome? fun k => named? m q point (k + 1)).getD (0, 0)
  ⟨stripZeros 20 found.1, width found.1 + found.2⟩

/-- The sign and the digits of an exponent, at least two digits. -/
def exponentSuffix (e : Int) : String :=
  (if e < 0 then "e-" else "e+") ++ String.ofList (digitsIn 10 2 e.natAbs)

/-- A decimal written with a point when the point is near its digits, with an exponent otherwise. -/
def layout (d : Decimal) : String :=
  let ds := Nat.toDigits 10 d.digits
  if -4 < d.point ∧ d.point ≤ 16 then
    if d.point ≤ 0 then
      "0." ++ String.ofList (List.replicate (-d.point).toNat '0' ++ ds)
    else
      let padded := ds ++ List.replicate (d.point.toNat - ds.length) '0'
      let fraction := padded.drop d.point.toNat
      String.ofList (padded.take d.point.toNat) ++ "." ++
        String.ofList (if fraction = [] then ['0'] else fraction)
  else
    let fraction := ds.drop 1
    String.ofList (ds.take 1) ++ (if fraction = [] then "" else "." ++ String.ofList fraction) ++
      exponentSuffix (d.point - 1)

end Decimal

/-- The text of a double: the shortest decimal that names it. -/
def Binary.text (nan infinity : String) : Binary → String
  | .nan => nan
  | .infinite negative => (if negative then "-" else "") ++ infinity
  | .finite negative m q =>
    (if negative then "-" else "") ++ (if m = 0 then "0.0" else (Decimal.shortest m q).layout)

/-- The text of a double in answers and messages. -/
def floatText (x : Float) : String := (Binary.ofFloat x).text "nan" "inf"

end Simplex
