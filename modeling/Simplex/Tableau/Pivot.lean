import Simplex.Session
/-! The pivot step: row operations that turn one column into a unit vector. Every new number is
    computed from the numbers before the pivot, and the pivot column is then set exactly. -/

namespace Simplex

namespace Program
variable {K : Type} [Scalar K]

/-- Makes column `s` the unit vector of row `r`. -/
def pivot (r s : Nat) (p : Program K) : Program K :=
  let row := p.row r
  let a := p.entry r s
  let c := p.cost s
  let b := p.value r
  { p with
    constant := p.constant + (c * b) / a
    costs := (List.zipWith (fun x y => x - (y * c) / a) p.costs row).set s 0
    rhs := (List.zipWith (fun x other => x - (other.getD s 0 * b) / a) p.rhs p.rows).set r (b / a)
    rows := (p.rows.map fun other =>
        (List.zipWith (fun x y => x - (other.getD s 0 * y) / a) other row).set s 0).set r
      ((row.map (· / a)).set s 1) }

end Program

/-- A natural number below the bound. -/
def indexBelow? (bound : Nat) (i : Int) : Option Nat :=
  if 0 ≤ i ∧ i < bound then some i.toNat else none

namespace Action
variable {K : Type} [Scalar K]

/-- Pivots on a row and a column of the program. It is noted whether the element lies within the
    tolerance of zero. -/
def pivot (row column : Int) : Action K Unit := do
  let p ← program
  match indexBelow? p.m row, indexBelow? p.n column with
  | none, _ => throw (.size (.noConstraint row p.m))
  | some _, none => throw (.size (.noVariable column p.n))
  | some r, some s =>
    let a := p.entry r s
    note (.pivoted a (Scalar.lt (Scalar.abs a) p.tolerance) r s)
    setProgram (p.pivot r s)

end Action

end Simplex
