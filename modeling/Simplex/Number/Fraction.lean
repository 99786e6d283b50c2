import Simplex.Number.Places
import Simplex.Fault
/-! Fractions with few digits. A number whose numerator or denominator is too long is replaced by
    the nearest fraction with a denominator below the bound, found among the convergents of its
    continued fraction and the fractions between the last two. -/

namespace Simplex.Fraction

/-- Two neighbouring convergents `p₀/q₀` and `p₁/q₁`, and the remainder not yet expanded. -/
structure Convergents where
  p₀ : Int
  q₀ : Nat
  p₁ : Int
  q₁ : Nat
  remainder : Nat
  deriving Repr

/-- Expands `n / d` while the denominators of the convergents stay within the bound. -/
def expand (bound : Nat) (n : Int) (d : Nat) (p₀ : Int) (q₀ : Nat) (p₁ : Int) (q₁ : Nat) :
    Convergents :=
  if _h : d = 0 then ⟨p₀, q₀, p₁, q₁, d⟩
  else
    let a := n / (d : Int)
    let q₂ := q₀ + a.toNat * q₁
    if bound < q₂ then ⟨p₀, q₀, p₁, q₁, d⟩
    else expand bound d (n % (d : Int)).toNat p₁ q₁ (p₀ + a * p₁) q₂
termination_by d
decreasing_by
  have : n % (d : Int) < d := Int.emod_lt_of_pos n (by omega)
  omega

/-- The fraction nearest to `r` among those with a denominator up to `bound`; of two at the same
    distance, the convergent. -/
def nearestWithin (bound : Nat) (r : Rat) : Rat :=
  if r.den ≤ bound then r
  else
    let c := expand bound r.num r.den 0 1 1 0
    -- as many steps beyond the last convergent as the bound allows
    let k := (bound - c.q₀) / c.q₁
    let convergent := mkRat c.p₁ c.q₁
    let between := mkRat (c.p₀ + k * c.p₁) (c.q₀ + k * c.q₁)
    if 2 * c.remainder * (c.q₀ + k * c.q₁) ≤ r.den then convergent else between

/-- The double nearest to `10 ^ (-10)`; a magnitude below it counts as zero. -/
def cutoff : Rat := mkRat 7737125245533627 (pow2 86)

/-- Are numerator and denominator within the bound? -/
def fits (bound : Nat) (r : Rat) : Bool := r.num.natAbs ≤ bound && r.den ≤ bound

/-- The largest number with the given count of digits. -/
def largest (digits : Nat) : Nat := pow10 digits - 1

/-- Does a magnitude count as zero? -/
def isSmall : Option Rat → Bool
  | some x => decide (-cutoff < x) && decide (x < cutoff)
  | none => false

/-- A number with at most `digits` digits in its denominator. What is too long is taken at its
    nearest double, and there is none beyond the range of doubles. -/
def limited (digits : Int) (exact : Rat) (double? : Option Rat) : Except ArgumentFault Rat :=
  if isSmall double? then .ok 0
  else
    let bound := largest digits.toNat
    if fits bound exact then .ok exact
    else match double? with
      | none => .error .tooLarge
      | some x => if digits ≤ 0 then .error .malformed else .ok (nearestWithin bound x)

/-- A double with at most `digits` digits in its denominator. -/
def limitedFloat (digits : Int) (x : Float) : Except ArgumentFault Rat :=
  match Binary.ofFloat x with
  | .nan => .error .malformed
  | .infinite _ => .error .tooLarge
  | b => limited digits (b.toRat?.getD 0) b.toRat?

/-- A fraction in lowest terms, and an integer without a denominator. -/
def text (r : Rat) : String :=
  if r.den = 1 then toString r.num else toString r.num ++ "/" ++ toString r.den

/-- The count of places that a text can have at most. -/
def mostPlaces : Int := 2147483647

/-- A double with a count of places that may be out of range. -/
def placesText (places : Int) (x : Float) : Except ArgumentFault String :=
  if places < 0 ∨ mostPlaces < places then .error .malformed else .ok (fixedText places.toNat x)

/-- Does the fraction miss the double by more than `10 ^ (-digits)`, counted in doubles? -/
def misses (digits : Int) (r : Rat) (x : Float) : Bool :=
  Float.lt (Binary.nearest false (pow10 (-digits).toNat) (pow10 digits.toNat))
    (Binary.nearestRat r - x).abs

/-- A double as a short fraction, or with places where the fraction misses it. -/
def ofFloat (digits : Int) (x : Float) : Except ArgumentFault String := do
  let r ← limitedFloat digits x
  if misses digits r x then placesText digits x else .ok (text r)

end Simplex.Fraction
