import Simplex.Proofs.Tableau.Extraction
/-! The row of a variable and the variable of a row. The tableau is searched in two directions:
    along a row for the columns that are its unit vector, and down a column for the row in which it
    is one. With a tolerance below one half a column is the unit vector of one row at most, so the
    two searches cannot disagree: the row that is found for a variable is the row among whose unit
    columns the variable is. -/

namespace Simplex.Program
variable {p : Program ℚ} {nonbasic : List ℤ} {i j k : ℕ}

theorem mem_unitColumns : j ∈ p.unitColumns i ↔ j < p.n ∧ p.isUnit i j = true := by
  rw [unitColumns, List.mem_filter, List.mem_range]

/-- No variable is among the unit columns of two rows. -/
theorem row_eq_of_mem_unitColumns (ht : 0 ≤ p.tolerance) (hhalf : p.tolerance < 1 / 2)
    (hi : i < p.m) (hij : j ∈ p.unitColumns i) (hkj : j ∈ p.unitColumns k) : i = k :=
  row_eq_of_isUnit ht hhalf hi (mem_unitColumns.1 hij).2 (mem_unitColumns.1 hkj).2

/-- A unit column of a row is near one there, so the search down a column passes over no
    row for its first test. -/
theorem near_one_of_mem_unitColumns (ht : 0 ≤ p.tolerance) (hi : i < p.m)
    (hij : j ∈ p.unitColumns i) :
    Scalar.near p.tolerance (p.entry i j) 1 = true := by
  have hnear := (isUnit_iff_near ht).1 (mem_unitColumns.1 hij).2 i hi
  rw [if_pos rfl] at hnear
  exact (Scalar.near_rat ht).2 hnear

/-- The two tests of the search down a column are one. -/
theorem near_one_and_contains (ht : 0 ≤ p.tolerance) (hi : i < p.m) :
    (Scalar.near p.tolerance (p.entry i j) 1 && (p.unitColumns i).contains j) = true ↔
    j ∈ p.unitColumns i := by
  rw [Bool.and_eq_true, List.contains_iff_mem]
  exact ⟨And.right, fun hij => ⟨near_one_of_mem_unitColumns ht hi hij, hij⟩⟩

/-- The search down a column ends at the row of which it is the unit vector. -/
theorem basicRow_eq_ok_iff (ht : 0 ≤ p.tolerance) (hhalf : p.tolerance < 1 / 2) :
    p.basicRow j = .ok i ↔ i < p.m ∧ j ∈ p.unitColumns i := by
  unfold basicRow
  split
  · next r hfind =>
    obtain ⟨htest, hr, -⟩ := List.find?_range_eq_some.1 hfind
    have hr : r < p.m := List.mem_range.1 hr
    have hrj : j ∈ p.unitColumns r := (near_one_and_contains ht hr).1 htest
    rw [Except.ok.injEq]
    constructor
    · rintro rfl
      exact ⟨hr, hrj⟩
    · rintro ⟨-, hij⟩
      exact row_eq_of_mem_unitColumns ht hhalf hr hrj hij
  · next hfind =>
    refine iff_of_false nofun ?_
    rintro ⟨hi, hij⟩
    exact List.find?_eq_none.1 hfind i (List.mem_range.2 hi) ((near_one_and_contains ht hi).2 hij)

/-- The search down a column has one way to fail, and fails exactly where the
    column is no unit vector. -/
theorem basicRow_eq_error_iff (ht : 0 ≤ p.tolerance) {f : BasisFault} :
    p.basicRow j = .error f ↔ f = .notBasic ∧ ∀ i < p.m, j ∉ p.unitColumns i := by
  unfold basicRow
  split
  · next r hfind =>
    obtain ⟨htest, hr, -⟩ := List.find?_range_eq_some.1 hfind
    have hr : r < p.m := List.mem_range.1 hr
    exact iff_of_false nofun fun h => h.2 r hr ((near_one_and_contains ht hr).1 htest)
  · next hfind =>
    have hnone : ∀ i < p.m, j ∉ p.unitColumns i := fun i hi hij =>
      List.find?_eq_none.1 hfind i (List.mem_range.2 hi) ((near_one_and_contains ht hi).2 hij)
    rw [Except.error.injEq, eq_comm]
    exact (and_iff_left hnone).symm

/-- Only a row with one candidate has a variable that can leave. -/
theorem candidates_of_leavingVariable (h : p.leavingVariable nonbasic i = .ok j) :
    p.candidates nonbasic i = [j] := by
  unfold leavingVariable at h
  split at h
  · next hc =>
    cases h
    exact hc
  · cases h
  · cases h

/-- The row lookup takes a candidate of a row back to the row. -/
theorem basicRow_of_mem_candidates (ht : 0 ≤ p.tolerance) (hhalf : p.tolerance < 1 / 2)
    (hi : i < p.m) (hij : j ∈ p.candidates nonbasic i) : p.basicRow j = .ok i := by
  obtain ⟨hn, hunit, -⟩ := mem_candidates.1 hij
  exact (basicRow_eq_ok_iff ht hhalf).2 ⟨hi, mem_unitColumns.2 ⟨hn, hunit⟩⟩

/-- With a tolerance below one half the lookups by row and by column are inverse to each other. A
    column is the unit vector of one row at most; the row of a variable is found exactly where its
    column is a unit vector, and it is the row of that vector; and whatever variables are taken for
    nonbasic, once the basic variables are found, each is taken back to its row, and the variable
    that leaves at a row, where there is one, is the basic one of the row. -/
theorem lookups_inverse (ht : 0 ≤ p.tolerance) (hhalf : p.tolerance < 1 / 2) :
    (∀ j < p.n, ∀ i < p.m, ∀ k < p.m, j ∈ p.unitColumns i → j ∈ p.unitColumns k → i = k) ∧
    (∀ j < p.n, ∀ i, p.basicRow j = .ok i ↔ i < p.m ∧ j ∈ p.unitColumns i) ∧
    (∀ j < p.n, ∀ f, p.basicRow j = .error f ↔ f = .notBasic ∧ ∀ i < p.m, j ∉ p.unitColumns i) ∧
    ∀ nonbasic basis, p.basicVariables nonbasic = .ok basis → basis.length = p.m ∧
      ∀ i (hi : i < basis.length), basis[i] ∈ p.unitColumns i ∧ p.basicRow basis[i] = .ok i ∧
        ∀ j, p.leavingVariable nonbasic i = .ok j → j = basis[i] := by
  refine ⟨?_, ?_, ?_, ?_⟩
  · intro j _ i hi k _
    exact row_eq_of_mem_unitColumns ht hhalf hi
  · intro j _ i
    exact basicRow_eq_ok_iff ht hhalf
  · intro j _ f
    exact basicRow_eq_error_iff ht
  · intro nonbasic basis h
    obtain ⟨hlength, hmem⟩ := basicVariables_eq_ok h
    refine ⟨hlength, fun i hi => ?_⟩
    have hm : i < p.m := hlength ▸ hi
    have hrow : p.basicRow basis[i] = .ok i := basicRow_of_mem_candidates ht hhalf hm (hmem i hi)
    refine ⟨((basicRow_eq_ok_iff ht hhalf).1 hrow).2, hrow, fun j hj => ?_⟩
    have honly := hmem i hi
    rw [candidates_of_leavingVariable hj, List.mem_singleton] at honly
    exact honly.symm

/-- Two rows with the columns (1, 1/10), (0, 1), (9/10, 0) and (3/5, 0). At the tolerance 1/4 the
    first and the third are unit vectors of the first row, and the last is none. -/
def leaningUnits : Program ℚ :=
  { objective := .maximize
    costs := [7, 0, 0, 2]
    constant := 3
    restrictions := List.replicate 4 .nonNegative
    relations := [.equal, .equal]
    rhs := [4, -2]
    rows := [[1, 0, 9 / 10, 3 / 5], [1 / 10, 1, 0, 0]]
    standard := true
    simplex := true
    tolerance := 1 / 4 }

/-- The first row has two unit columns, and both are taken back to it. Which of them is the basic
    variable is said by the nonbasic ones; the variable that leaves is the same. -/
theorem lookups_inverse_leaningUnits : leaningUnits.tolerance < 1 / 2 ∧
    leaningUnits.basicRow 0 = .ok 0 ∧ leaningUnits.basicRow 2 = .ok 0 ∧
    leaningUnits.basicRow 3 = .error .notBasic ∧
    leaningUnits.basicVariables [0, 3] = .ok [2, 1] ∧ leaningUnits.basicRow 1 = .ok 1 ∧
    leaningUnits.leavingVariable [0, 3] 0 = .ok 2 ∧
    ∀ j, leaningUnits.leavingVariable [0, 3] 0 = .ok j → j = 2 := by
  have hhalf : leaningUnits.tolerance < 1 / 2 := by decide +kernel
  have hbasis : leaningUnits.basicVariables [0, 3] = .ok [2, 1] := by decide +kernel
  have hunits : 0 ∈ leaningUnits.unitColumns 0 ∧ 2 ∈ leaningUnits.unitColumns 0 := by decide +kernel
  have hnone : ∀ i < leaningUnits.m, 3 ∉ leaningUnits.unitColumns i := by decide +kernel
  obtain ⟨-, hrow, hfault, hall⟩ := lookups_inverse (p := leaningUnits) (by decide +kernel) hhalf
  obtain ⟨-, hback⟩ := hall [0, 3] [2, 1] hbasis
  exact ⟨hhalf, (hrow 0 (by decide) 0).2 ⟨by decide, hunits.1⟩,
    (hrow 2 (by decide) 0).2 ⟨by decide, hunits.2⟩, (hfault 3 (by decide) .notBasic).2 ⟨rfl, hnone⟩,
    hbasis, (hback 1 (by decide)).2.1, by decide +kernel, (hback 0 (by decide)).2.2⟩

end Simplex.Program
