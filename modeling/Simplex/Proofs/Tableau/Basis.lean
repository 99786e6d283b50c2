import Mathlib.Logic.Function.Basic
import Simplex.Proofs.Tableau.Pivot
import Simplex.Tableau.Basis
/-! A basis of a tableau gives every row a column that is the unit vector of that row and has
    no cost, and the columns outside the nonbasic variables are these and no others. Unit
    vectors are recognised up to the tolerance. As long as it is below one, a tableau with a
    basis leaves no doubt which column belongs to which row, so every lookup finds the column
    or the row of the basis. -/

namespace Simplex.Program

/-- `B i` is the basic variable of row `i`. -/
structure Basis (p : Program ℚ) (nonbasic : List ℤ) (B : ℕ → ℕ) : Prop where
  lt : ∀ i < p.m, B i < p.n
  unit : ∀ i < p.m, ∀ k < p.m, p.entry k (B i) = if k = i then 1 else 0
  cost : ∀ i < p.m, p.cost (B i) = 0
  mem_iff : ∀ j < p.n, (j : ℤ) ∈ nonbasic ↔ ∀ i < p.m, B i ≠ j

/-- Tolerances with which one and zero are told apart. -/
structure Sharp (p : Program ℚ) : Prop where
  nonneg : 0 ≤ p.tolerance
  lt_one : p.tolerance < 1

theorem Sharp.congr {p q : Program ℚ} (h : q.Sharp) (ht : p.tolerance = q.tolerance) : p.Sharp := by
  refine ⟨?_, ?_⟩
  · rw [ht]
    exact h.nonneg
  · rw [ht]
    exact h.lt_one

namespace Basis
variable {p : Program ℚ} {nonbasic : List ℤ} {B : ℕ → ℕ}

theorem injective (h : p.Basis nonbasic B) {i k : ℕ} (hi : i < p.m) (hk : k < p.m)
    (hik : B i = B k) : i = k := by
  have hone := h.unit i hi i hi
  rw [if_pos rfl, hik, h.unit k hk i hi] at hone
  by_contra hne
  simp [hne] at hone

theorem notMem (h : p.Basis nonbasic B) {i : ℕ} (hi : i < p.m) : (B i : ℤ) ∉ nonbasic :=
  fun hmem => (h.mem_iff _ (h.lt i hi)).1 hmem i hi rfl

/-- Only the rows of the program count. -/
theorem congr (h : p.Basis nonbasic B) {C : ℕ → ℕ} (hC : ∀ i < p.m, B i = C i) :
    p.Basis nonbasic C := by
  refine ⟨?_, ?_, ?_, ?_⟩
  · intro i hi
    rw [← hC i hi]
    exact h.lt i hi
  · intro i hi
    rw [← hC i hi]
    exact h.unit i hi
  · intro i hi
    rw [← hC i hi]
    exact h.cost i hi
  · intro j hj
    rw [h.mem_iff j hj]
    exact forall₂_congr fun i hi => by rw [hC i hi]

/-- A variable of the program is nonbasic, or it is the basic variable of a row. -/
theorem exists_of_notMem (h : p.Basis nonbasic B) {j : ℕ} (hj : j < p.n)
    (hmem : (j : ℤ) ∉ nonbasic) : ∃ i < p.m, B i = j := by
  by_contra hno
  exact hmem ((h.mem_iff j hj).2 fun i hi hij => hno ⟨i, hi, hij⟩)

/-- A variable with a cost is nonbasic. -/
theorem mem_of_cost (h : p.Basis nonbasic B) {j : ℕ} (hj : j < p.n) (hc : p.cost j ≠ 0) :
    (j : ℤ) ∈ nonbasic :=
  (h.mem_iff j hj).2 fun i hi hij => hc (hij ▸ h.cost i hi)

/-- A variable that stands in a row with another basic variable is nonbasic. -/
theorem mem_of_entry (h : p.Basis nonbasic B) {i j : ℕ} (hi : i < p.m) (hj : j < p.n)
    (hij : B i ≠ j) (he : p.entry i j ≠ 0) : (j : ℤ) ∈ nonbasic := by
  refine (h.mem_iff j hj).2 fun k hk hkj => ?_
  have hunit := h.unit k hk i hi
  rw [hkj] at hunit
  by_cases hik : i = k
  · exact hij (hik ▸ hkj)
  · exact he (by rw [hunit, if_neg hik])

/-! ### Lookups -/

theorem near_unit {t : ℚ} (ht : 0 ≤ t) (h1 : t < 1) (a b : Prop) [Decidable a] [Decidable b] :
    Scalar.near t (if a then 1 else 0) (if b then (1 : ℚ) else 0) = true ↔ (a ↔ b) := by
  rw [Scalar.near_rat ht]
  by_cases ha : a <;> by_cases hb : b <;> simp [ha, hb, ht, h1]

theorem isUnit_iff (h : p.Basis nonbasic B) (hs : p.Sharp) {i k : ℕ} (hi : i < p.m) (hk : k < p.m) :
    p.isUnit k (B i) = true ↔ k = i := by
  simp only [isUnit, List.all_eq_true, List.mem_range]
  constructor
  · intro hall
    have hkk := hall k hk
    rw [h.unit i hi k hk] at hkk
    simpa using (near_unit hs.nonneg hs.lt_one (k = i) (k = k)).1 hkk
  · rintro rfl l hl
    rw [h.unit k hi l hl]
    exact (near_unit hs.nonneg hs.lt_one (l = k) (l = k)).2 Iff.rfl

theorem filter_range_eq {n a : ℕ} (ha : a < n) (f : ℕ → Bool) (hf : ∀ j < n, f j = true ↔ j = a) :
    (List.range n).filter f = [a] := by
  have hcongr : (List.range n).filter f = (List.range n).filter (· == a) :=
    List.filter_congr fun j hj => by
      rw [Bool.eq_iff_iff, hf j (List.mem_range.1 hj), beq_iff_eq]
  rw [hcongr, List.filter_beq, List.count_eq_one_of_mem List.nodup_range (List.mem_range.2 ha)]
  rfl

/-- The basic variable of a row is its one candidate. -/
theorem candidates_eq (h : p.Basis nonbasic B) (hs : p.Sharp) {i : ℕ} (hi : i < p.m) :
    p.candidates nonbasic i = [B i] := by
  rw [candidates, unitColumns, List.filter_filter]
  refine filter_range_eq (h.lt i hi) _ fun j hj => ?_
  simp only [Bool.and_eq_true, Bool.not_eq_true', List.contains_iff_mem, ← Bool.not_eq_true]
  constructor
  · rintro ⟨hmem, hunit⟩
    obtain ⟨k, hk, rfl⟩ := h.exists_of_notMem hj hmem
    rw [(h.isUnit_iff hs hk hi).1 hunit]
  · rintro rfl
    exact ⟨h.notMem hi, (h.isUnit_iff hs hi hi).2 rfl⟩

theorem leavingVariable_eq (h : p.Basis nonbasic B) (hs : p.Sharp) {i : ℕ} (hi : i < p.m) :
    p.leavingVariable nonbasic i = .ok (B i) := by
  rw [leavingVariable, h.candidates_eq hs hi]

theorem basicVariables_eq (h : p.Basis nonbasic B) (hs : p.Sharp) :
    p.basicVariables nonbasic = .ok ((List.range p.m).map B) := by
  have each : ∀ is : List ℕ, (∀ i ∈ is, i < p.m) →
      is.mapM (p.basicVariable nonbasic) = .ok (is.map B) := by
    intro is
    induction is with
    | nil => intro _; rfl
    | cons i is ih =>
      intro his
      have hi : p.basicVariable nonbasic i = .ok (B i) := by
        rw [basicVariable, h.candidates_eq hs (his i (by simp))]
      rw [List.mapM_cons, hi, ih fun k hk => his k (by simp [hk])]
      rfl
  exact each _ fun i hi => List.mem_range.1 hi

/-- A basic variable is found in its row. -/
theorem basicRow_eq (h : p.Basis nonbasic B) (hs : p.Sharp) {i : ℕ} (hi : i < p.m) :
    p.basicRow (B i) = .ok i := by
  have hfind : (List.range p.m).find? (fun k => Scalar.near p.tolerance (p.entry k (B i)) 1 &&
      (p.unitColumns k).contains (B i)) = some i := by
    have only : ∀ k < p.m, (Scalar.near p.tolerance (p.entry k (B i)) 1 &&
        (p.unitColumns k).contains (B i)) = true ↔ k = i := by
      intro k hk
      have hnear := near_unit hs.nonneg hs.lt_one (k = i) True
      rw [if_pos trivial, iff_true] at hnear
      rw [Bool.and_eq_true, h.unit i hi k hk, hnear, List.contains_iff_mem, unitColumns,
        List.mem_filter, h.isUnit_iff hs hi hk, List.mem_range]
      exact ⟨fun hk => hk.1, fun hk => ⟨hk, h.lt i hi, hk⟩⟩
    rw [List.find?_range_eq_some]
    refine ⟨(only i hi).2 rfl, List.mem_range.2 hi, ?_⟩
    intro k hk
    rw [Bool.not_eq_true', ← Bool.not_eq_true, only k (hk.trans hi)]
    exact hk.ne
  rw [basicRow, hfind]

/-! ### Exchanging a variable -/

/-- What is nonbasic after variable `s` has taken the place of the variable of row `r`. -/
theorem mem_exchange_iff (h : p.Basis nonbasic B) {r s : ℕ} (hr : r < p.m) (hs : s < p.n)
    (hmem : (s : ℤ) ∈ nonbasic) {j : ℕ} (hj : j < p.n) :
    (j : ℤ) ∈ IndexSet.exchange s (B r) nonbasic ↔ ∀ i < p.m, Function.update B r s i ≠ j := by
  have hBs : ∀ i < p.m, B i ≠ s := (h.mem_iff s hs).1 hmem
  rw [IndexSet.mem_exchange]
  constructor
  · rintro (hleave | ⟨hstay, hne⟩) i hi
    · -- j left the basis: row r has s now, and no other row had j
      have hj : j = B r := by exact_mod_cast hleave
      by_cases hir : i = r
      · rw [hir, Function.update_self, hj]
        exact (hBs r hr).symm
      · rw [Function.update_of_ne hir, hj]
        exact fun hik => hir (h.injective hi hr hik)
    · by_cases hir : i = r
      · rw [hir, Function.update_self]
        exact fun hsj => hne (by rw [hsj])
      · rw [Function.update_of_ne hir]
        exact (h.mem_iff j hj).1 hstay i hi
  · intro hall
    have hsj : s ≠ j := by simpa using hall r hr
    by_cases hj' : j = B r
    · exact .inl (by rw [hj'])
    · refine .inr ⟨(h.mem_iff j hj).2 fun i hi hij => ?_,
        fun hjs => hsj (by exact_mod_cast hjs.symm)⟩
      by_cases hir : i = r
      · exact hj' (hir ▸ hij.symm)
      · exact hall i hi (by rw [Function.update_of_ne hir, hij])

/-- A basic variable of one row does not stand in another. -/
theorem entry_of_ne (h : p.Basis nonbasic B) {i r : ℕ} (hr : r < p.m) (hi : i < p.m) (hri : r ≠ i) :
    p.entry r (B i) = 0 := by
  rw [h.unit i hi r hr, if_neg hri]

/-- A unit column of another row has a zero in the pivot row and stays. -/
theorem entry_pivot_of_ne (h : p.Basis nonbasic B) (hp : p.Rectangular) {r s i k : ℕ} (hr : r < p.m)
    (ha : p.entry r s ≠ 0) (hi : i < p.m) (hk : k < p.m) (hir : i ≠ r) :
    (p.pivot r s).entry k (B i) = if k = i then 1 else 0 := by
  rw [entry_pivot_of_zero hp hr ha hk (h.lt i hi) (h.entry_of_ne hr hi (Ne.symm hir)),
    h.unit i hi k hk]

/-- A pivot on a nonbasic column puts it into the basis, in the place of the variable of the row. -/
theorem pivot (h : p.Basis nonbasic B) (hp : p.Rectangular) {r s : ℕ} (hr : r < p.m) (hs : s < p.n)
    (ha : p.entry r s ≠ 0) (hmem : (s : ℤ) ∈ nonbasic) :
    (p.pivot r s).Basis (IndexSet.exchange s (B r) nonbasic) (Function.update B r s) := by
  have hn := n_pivot (s := s) hp hr
  have hm := m_pivot (r := r) (s := s) hp
  refine ⟨?_, ?_, ?_, ?_⟩
  · intro i hi
    rw [hm] at hi
    rw [hn]
    by_cases hir : i = r
    · rwa [hir, Function.update_self]
    · rw [Function.update_of_ne hir]
      exact h.lt i hi
  · intro i hi k hk
    rw [hm] at hi hk
    by_cases hir : i = r
    · rw [hir, Function.update_self, entry_pivot_self hp hr ha hk hs]
    · rw [Function.update_of_ne hir]
      exact h.entry_pivot_of_ne hp hr ha hi hk hir
  · intro i hi
    rw [hm] at hi
    by_cases hir : i = r
    · rw [hir, Function.update_self, cost_pivot_self hp hr ha hs]
    · rw [Function.update_of_ne hir,
        cost_pivot_of_zero hp hr ha (h.lt i hi) (h.entry_of_ne hr hi (Ne.symm hir)), h.cost i hi]
  · intro j hj
    rw [hn] at hj
    rw [hm]
    exact h.mem_exchange_iff hr hs hmem hj

end Basis

end Simplex.Program
