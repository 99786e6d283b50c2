import Simplex.Number.Shortest
/-! Doubles and quotients rounded to a count of places or of digits. Each text is that of the exact
    value, rounded once, a half to the even neighbour. -/

namespace Simplex

namespace Decimal

/-- `num / den` with `places` digits after the point. -/
def fixedQuotient (places num den : Nat) : String :=
  let ds := digitsIn 10 (places + 1) (roundEven (num * pow10 places) den)
  let cut := ds.length - places
  String.ofList (ds.take cut) ++
    (if places = 0 then "" else "." ++ String.ofList (ds.drop cut))

/-- The `k` leading digits of a positive quotient, rounded, and the exponent
    of the first of them. -/
def leading (k num den : Nat) : Nat × Int :=
  let point := pointOf num den
  let p := point - k
  let d := roundEven (num * pow10 (-p).toNat) (den * pow10 p.toNat)
  if d = pow10 k then (pow10 (k - 1), point) else (d, point - 1)

end Decimal

/-- A finite magnitude under a sign, or the word for what is no finite number. -/
def Binary.signed (x : Float) (magnitude : Nat → Int → String) : String :=
  match Binary.ofFloat x with
  | .nan => "nan"
  | .infinite negative => if negative then "-inf" else "inf"
  | .finite negative m q => (if negative then "-" else "") ++ magnitude m q

/-- A double with a fixed number of places. -/
def fixedText (places : Nat) (x : Float) : String :=
  Binary.signed x fun m q => Decimal.fixedQuotient places (Binary.num m q) (Binary.den q)

/-- A double as one digit, `places` more after the point, and an exponent. -/
def scientificText (places : Nat) (x : Float) : String :=
  Binary.signed x fun m q =>
    let (d, e) :=
      if m = 0 then (0, 0) else Decimal.leading (places + 1) (Binary.num m q) (Binary.den q)
    let ds := digitsIn 10 (places + 1) d
    String.ofList (ds.take 1) ++ (if places = 0 then "" else "." ++ String.ofList (ds.drop 1)) ++
      Decimal.exponentSuffix e

/-- The digits after the point without the zeros they end in, and no point before none. -/
def Decimal.fractionText (ds : List Char) : String :=
  let kept := (ds.reverse.dropWhile (· == '0')).reverse
  if kept = [] then "" else "." ++ String.ofList kept

/-- A double with six significant digits: an exponent only for small and for large magnitudes. -/
def generalText (x : Float) : String :=
  Binary.signed x fun m q =>
    if m = 0 then "0"
    else
      let (d, e) := Decimal.leading 6 (Binary.num m q) (Binary.den q)
      let ds := Nat.toDigits 10 d
      if -4 ≤ e ∧ e < 6 then
        let padded := List.replicate (-e).toNat '0' ++ ds
        String.ofList (padded.take (e.toNat + 1)) ++
          Decimal.fractionText (padded.drop (e.toNat + 1))
      else
        String.ofList (ds.take 1) ++ Decimal.fractionText (ds.drop 1) ++ Decimal.exponentSuffix e

end Simplex
