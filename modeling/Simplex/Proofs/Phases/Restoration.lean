import Simplex.Proofs.Phases.Replacement
/-! What is left after the first phase. Without the artificial variables and the redundant rows the
    tableau has a basis of structural variables, and without tolerance it has the solutions of the
    standard form. The objective of the standard form is then written in terms of that basis, which
    gives the second phase a tableau to start from. -/

namespace Simplex

/-! ### Dropping rows -/

theorem getD_dropPositions {α : Type} {dropped : List ℕ} {xs : List α} {i : ℕ}
    (hi : i < (keptRows xs.length dropped).length) (d : α) :
    (dropPositions dropped xs).getD i d = xs.getD ((keptRows xs.length dropped).getD i 0) d := by
  rw [dropPositions_eq_map dropped xs d]
  exact getD_map _ hi 0 d

namespace Program

theorem sum_mul_truncate {n k : ℕ} (hn : n ≤ k) (a : ℕ → ℚ) (x : Point) :
    ∑ j ∈ Finset.range k, a j * truncate n x j = ∑ j ∈ Finset.range n, a j * x j := by
  have hsub : Finset.range n ⊆ Finset.range k := Finset.range_subset_range.2 hn
  rw [← Finset.sum_subset hsub fun j _ hj => ?_]
  · exact Finset.sum_congr rfl fun j hj => by rw [truncate, if_pos (Finset.mem_range.1 hj)]
  · rw [truncate, if_neg fun hlt => hj (Finset.mem_range.2 hlt), mul_zero]

section Strip
variable {p : Program ℚ} {n : ℕ} {dropped : List ℕ}

/-- The row of the tableau that becomes row `i`. -/
def kept (p : Program ℚ) (dropped : List ℕ) (i : ℕ) : ℕ := (keptRows p.m dropped).getD i 0

theorem kept_mem {i : ℕ} (hi : i < (p.strip n dropped).m) :
    p.kept dropped i < p.m ∧ p.kept dropped i ∉ dropped :=
  mem_keptRows.1 (getD_mem (m_strip ▸ hi) 0)

theorem exists_kept {k : ℕ} (hk : k < p.m) (hd : k ∉ dropped) :
    ∃ i < (p.strip n dropped).m, p.kept dropped i = k := by
  obtain ⟨i, hi, hik⟩ := List.mem_iff_getElem.1 (mem_keptRows.2 ⟨hk, hd⟩)
  refine ⟨i, m_strip.symm ▸ hi, ?_⟩
  rw [kept, List.getD_eq_getElem _ _ hi, hik]

theorem kept_injective {i k : ℕ} (hi : i < (p.strip n dropped).m) (hk : k < (p.strip n dropped).m)
    (h : p.kept dropped i = p.kept dropped k) : i = k := by
  rw [m_strip] at hi hk
  rw [kept, kept, List.getD_eq_getElem _ _ hi, List.getD_eq_getElem _ _ hk] at h
  exact (nodup_keptRows p.m dropped).getElem_inj_iff.1 h

theorem value_strip {i : ℕ} (hi : i < (p.strip n dropped).m) :
    (p.strip n dropped).value i = p.value (p.kept dropped i) :=
  getD_dropPositions (m_strip ▸ hi) 0

theorem row_strip (hp : p.Rectangular) {i : ℕ} (hi : i < (p.strip n dropped).m) :
    (p.strip n dropped).row i = (p.row (p.kept dropped i)).take n := by
  have hi' : i < (keptRows p.rows.length dropped).length := by
    rw [hp.rows]
    exact m_strip ▸ hi
  have hlen : i < (dropPositions dropped p.rows).length := by
    rwa [dropPositions_eq_map dropped p.rows [], List.length_map]
  have hget : (dropPositions dropped p.rows).getD i [] = p.row (p.kept dropped i) := by
    rw [getD_dropPositions hi' [], hp.rows]
    rfl
  simp only [row, strip]
  rw [getD_map _ hlen [], hget]
  rfl

theorem entry_strip (hp : p.Rectangular) {i j : ℕ} (hi : i < (p.strip n dropped).m) (hj : j < n) :
    (p.strip n dropped).entry i j = p.entry (p.kept dropped i) j := by
  rw [entry, row_strip hp hi, List.getD_eq_getElem?_getD, List.getElem?_take, if_pos hj,
    ← List.getD_eq_getElem?_getD]
  rfl

theorem cost_strip {j : ℕ} (hj : j < n) : (p.strip n dropped).cost j = p.cost j := by
  simp only [cost, strip, List.getD_eq_getElem?_getD, List.getElem?_take, if_pos hj]

theorem rowAt_strip (hp : p.Rectangular) (hn : n ≤ p.n) {i : ℕ} (hi : i < (p.strip n dropped).m)
    (x : Point) :
    (p.strip n dropped).rowAt i x = p.rowAt (p.kept dropped i) (truncate n x) := by
  rw [rowAt, rowAt, sum_mul_truncate hn, n_strip hn]
  exact Finset.sum_congr rfl fun j hj => by rw [entry_strip hp hi (Finset.mem_range.1 hj)]

/-- The basis that is left. -/
theorem Basis.strip {nonbasic : List ℤ} {B : ℕ → ℕ} (h : p.Basis nonbasic B) (hp : p.Rectangular)
    (hn : n ≤ p.n) (hd : ∀ i < p.m, i ∈ dropped ↔ n ≤ B i) :
    (p.strip n dropped).Basis (nonbasic.filter (· < (n : ℤ))) (B ∘ p.kept dropped) := by
  have hlt : ∀ {i}, i < (p.strip n dropped).m → B (p.kept dropped i) < n := fun {i} hi => by
    obtain ⟨hm, hnot⟩ := kept_mem hi
    exact not_le.1 fun hle => hnot ((hd _ hm).2 hle)
  refine ⟨?_, ?_, ?_, ?_⟩
  · intro i hi
    rw [n_strip hn]
    exact hlt hi
  · intro i hi k hk
    rw [Function.comp_apply, entry_strip hp hk (hlt hi), h.unit _ (kept_mem hi).1 _ (kept_mem hk).1]
    by_cases hki : k = i
    · rw [if_pos hki, if_pos (hki ▸ rfl)]
    · rw [if_neg hki, if_neg fun heq => hki (kept_injective hk hi heq)]
  · intro i hi
    rw [Function.comp_apply, cost_strip (hlt hi), h.cost _ (kept_mem hi).1]
  · intro j hj
    rw [n_strip hn] at hj
    rw [List.mem_filter, h.mem_iff j (hj.trans_le hn)]
    constructor
    · rintro ⟨hall, _⟩ i hi
      exact hall _ (kept_mem hi).1
    · intro hall
      refine ⟨?_, by simpa using hj⟩
      intro i hi hij
      -- the variable of a dropped row is artificial, so j can only stand in a kept row
      by_cases hid : i ∈ dropped
      · have := (hd i hi).1 hid
        omega
      · obtain ⟨k, hk, rfl⟩ := exists_kept hi hid
        exact hall k hk hij

end Strip

/-! ### Restoring the objective -/

section Objective
variable {p P : Program ℚ} {nonbasic : List ℤ} {B : ℕ → ℕ}

theorem getD_foldl_set_zero {js : List ℕ} : ∀ {xs : List ℚ} {j : ℕ}, j < xs.length →
    (js.foldl (fun c j => c.set j 0) xs).getD j 0 = if j ∈ js then 0 else xs.getD j 0 := by
  induction js with
  | nil => intro xs j _; rfl
  | cons k js ih =>
    intro xs j hj
    rw [List.foldl_cons, ih (by simpa using hj), getD_set hj]
    by_cases hjs : j ∈ js
    · rw [if_pos hjs, if_pos (List.mem_cons_of_mem k hjs)]
    · by_cases hjk : j = k
      · rw [if_neg hjs, if_pos hjk, if_pos (hjk ▸ List.mem_cons_self)]
      · rw [if_neg hjs, if_neg hjk, if_neg (by simp [hjk, hjs])]

theorem dot_basis (xs : List ℚ) (hxs : xs.length = p.m) :
    Scalar.dot (((List.range p.m).map B).map P.cost) xs =
      ∑ i ∈ Finset.range p.m, P.cost (B i) * xs.getD i 0 := by
  rw [dot_eq_sum (by simp) hxs, List.map_map]
  exact Finset.sum_congr rfl fun i hi => by
    rw [getD_map_range _ (Finset.mem_range.1 hi)]
    rfl

/-- A basic variable stands in its own row only. -/
theorem Basis.sum_mul_entry (h : p.Basis nonbasic B) (a : ℕ → ℚ) {k : ℕ} (hk : k < p.m) :
    ∑ i ∈ Finset.range p.m, a i * p.entry i (B k) = a k := by
  rw [Finset.sum_eq_single k, h.unit k hk k hk, if_pos rfl, mul_one]
  · intro i hi hne
    rw [h.unit k hk i (Finset.mem_range.1 hi), if_neg hne, mul_zero]
  · intro hnot
    exact absurd (Finset.mem_range.2 hk) hnot

/-- What a variable costs beyond the basic variables it stands for. A basic variable costs nothing,
    so the costs that are set to zero are zero anyway. -/
theorem cost_withObjective (h : p.Basis nonbasic B) (hp : p.Rectangular) {j : ℕ} (hj : j < P.n) :
    (p.withObjective P ((List.range p.m).map B)).cost j =
      P.cost j - ∑ i ∈ Finset.range p.m, P.cost (B i) * p.entry i j := by
  have hcolumn : (p.column j).length = p.m := by simp [column, hp.rows]
  have hget : ∀ i ∈ Finset.range p.m, (p.column j).getD i 0 = p.entry i j := by
    intro i hi
    exact getD_map _ (hp.rows ▸ Finset.mem_range.1 hi) [] 0
  rw [cost, withObjective, getD_foldl_set_zero (by simpa using hj)]
  split_ifs with hmem
  · obtain ⟨k, hk, rfl⟩ := List.mem_map.1 hmem
    rw [h.sum_mul_entry (fun i => P.cost (B i)) (List.mem_range.1 hk), sub_self]
  · rw [getD_map_range _ hj, dot_basis _ hcolumn]
    exact congrArg _ (Finset.sum_congr rfl fun i hi => by rw [hget i hi])

theorem Basis.withObjective (h : p.Basis nonbasic B) (hp : p.Rectangular) (hn : p.n = P.n) :
    (p.withObjective P ((List.range p.m).map B)).Basis nonbasic B := by
  refine ⟨?_, h.unit, ?_, ?_⟩
  · intro i hi
    rw [n_withObjective, ← hn]
    exact h.lt i hi
  · intro i hi
    have hi : i < p.m := hi
    rw [cost_withObjective h hp (hn ▸ h.lt i hi), h.sum_mul_entry (fun i => P.cost (B i)) hi,
      sub_self]
  · intro j hj
    rw [n_withObjective, ← hn] at hj
    exact h.mem_iff j hj

/-- At a solution the restored objective is that of the standard form. -/
theorem objectiveAt_withObjective (h : p.Basis nonbasic B) (hp : p.Rectangular) (hn : p.n = P.n)
    {x : Point} (hx : p.Solves x) :
    (p.withObjective P ((List.range p.m).map B)).objectiveAt x = P.objectiveAt x := by
  have hcosts : ∑ j ∈ Finset.range P.n, (p.withObjective P ((List.range p.m).map B)).cost j * x j =
      ∑ j ∈ Finset.range P.n, P.cost j * x j -
        ∑ i ∈ Finset.range p.m, P.cost (B i) * p.value i := by
    have hrows : ∑ i ∈ Finset.range p.m, P.cost (B i) * p.value i =
        ∑ j ∈ Finset.range P.n, (∑ i ∈ Finset.range p.m, P.cost (B i) * p.entry i j) * x j := by
      simp only [Finset.sum_mul]
      rw [Finset.sum_comm]
      refine Finset.sum_congr rfl fun i hi => ?_
      rw [← hx i (Finset.mem_range.1 hi), rowAt, hn, Finset.mul_sum]
      exact Finset.sum_congr rfl fun j _ => (mul_assoc _ _ _).symm
    rw [hrows, ← Finset.sum_sub_distrib]
    exact Finset.sum_congr rfl fun j hj => by
      rw [cost_withObjective h hp (Finset.mem_range.1 hj), sub_mul]
  have hconstant : (p.withObjective P ((List.range p.m).map B)).constant =
      P.constant + ∑ i ∈ Finset.range p.m, P.cost (B i) * p.value i :=
    congrArg (P.constant + ·) (dot_basis p.rhs rfl)
  rw [objectiveAt, objectiveAt, n_withObjective, hcosts, hconstant]
  ring

end Objective

/-! ### The tableau of the second phase -/

/-- A tableau from which the second phase may start. Without tolerance it says what the standard
    form `P` says, and its right-hand sides are not negative. -/
structure Restored (P p : Program ℚ) (nonbasic : List ℤ) : Prop where
  rectangular : p.Rectangular
  n : p.n = P.n
  tolerance : p.tolerance = P.tolerance
  simplex : p.simplex = true
  basis : ∃ B, p.Basis nonbasic B
  within : IndexSet.Within P.n nonbasic
  nonneg : P.tolerance = 0 → ∀ i < p.m, 0 ≤ p.value i
  solves : P.tolerance = 0 → ∀ x, p.Solves x ↔ P.Solves x
  objectiveAt : P.tolerance = 0 → ∀ x, P.Solves x → p.objectiveAt x = P.objectiveAt x

namespace Replacing
variable {P p : Program ℚ} {absolute : Bool} {nonbasic : List ℤ} {redundant : List ℕ} {B : ℕ → ℕ}

/-- The rows that are dropped are those with an artificial variable in the basis. -/
theorem mem_redundant_iff (h : Replacing (P.auxiliary absolute) P.n [] p nonbasic redundant B)
    {i : ℕ} (hi : i < p.m) : i ∈ redundant ↔ P.n ≤ B i := by
  refine ⟨fun hmem => (h.stays i hmem).2.1, ?_⟩
  intro hart
  exact (h.covered i hi hart).resolve_left List.not_mem_nil

theorem n_le (h : Replacing (P.auxiliary absolute) P.n [] p nonbasic redundant B)
    (hP : P.Rectangular) :
    P.n ≤ p.n := by
  rw [h.tableau.n, n_auxiliary hP]
  exact Nat.le_add_right _ _

theorem basis_strip (h : Replacing (P.auxiliary absolute) P.n [] p nonbasic redundant B)
    (hP : P.Rectangular) :
    (p.strip P.n redundant).Basis (nonbasic.filter (· < (P.n : ℤ))) (B ∘ p.kept redundant) :=
  h.basis.strip h.tableau.rectangular (h.n_le hP) fun _ hi => h.mem_redundant_iff hi

/-- The rows that are dropped follow from nothing: they are zero on both sides. -/
theorem solves_strip (h : Replacing (P.auxiliary absolute) P.n [] p nonbasic redundant B)
    (hP : P.Rectangular) (ht : P.tolerance = 0) (x : Point) :
    (p.strip P.n redundant).Solves x ↔ P.Solves x := by
  have hp := h.tableau.rectangular
  have hd := h.degenerate ((tolerance_auxiliary hP).trans ht)
  rw [← solves_auxiliary_truncate (P := P) hP, ← h.tableau.solves]
  constructor
  · intro hx k hk
    by_cases hred : k ∈ redundant
    · rw [hd.artificial k hk (h.stays k hred).2.1, rowAt, sum_mul_truncate (h.n_le hP)]
      exact Finset.sum_eq_zero fun j hj => by
        rw [hd.entry k hred j (Finset.mem_range.1 hj), zero_mul]
    · obtain ⟨i, hi, rfl⟩ := exists_kept hk hred
      rw [← rowAt_strip hp (h.n_le hP) hi, hx i hi, value_strip hi]
  · intro hx i hi
    rw [rowAt_strip hp (h.n_le hP) hi, hx _ (kept_mem hi).1, value_strip hi]

/-- The second phase may start from what is left, with the objective restored. -/
theorem restored (h : Replacing (P.auxiliary absolute) P.n [] p nonbasic redundant B)
    (hP : P.Rectangular) : Restored P ((p.strip P.n redundant).withObjective P
      ((List.range (p.strip P.n redundant).m).map (B ∘ p.kept redundant)))
      (nonbasic.filter (· < (P.n : ℤ))) := by
  have hn : (p.strip P.n redundant).n = P.n := n_strip (h.n_le hP)
  have hp : (p.strip P.n redundant).Rectangular :=
    rectangular_strip h.tableau.rectangular (h.n_le hP)
  have hB := h.basis_strip hP
  refine ⟨rectangular_withObjective hp hn, n_withObjective, ?_, rfl,
    ⟨_, hB.withObjective hp hn⟩, ?_, ?_, ?_, ?_⟩
  · exact h.tableau.tolerance.trans (tolerance_auxiliary hP)
  · refine ⟨h.within.sorted.filter _, ?_⟩
    intro i hi
    obtain ⟨hmem, hlt⟩ := List.mem_filter.1 hi
    exact ⟨(h.within.range i hmem).1, by simpa using hlt⟩
  · intro ht i hi
    have hd := h.degenerate ((tolerance_auxiliary hP).trans ht)
    have hi : i < (p.strip P.n redundant).m := hi
    change 0 ≤ (p.strip P.n redundant).value i
    rw [value_strip hi]
    exact hd.nonneg _ (kept_mem hi).1
  · intro ht x
    rw [← h.solves_strip hP ht, Solves, Solves]
    refine forall₂_congr fun i _ => ?_
    rw [rowAt, rowAt, n_withObjective, hn]
    rfl
  · intro ht x hx
    exact objectiveAt_withObjective hB hp hn ((h.solves_strip hP ht x).2 hx)

end Replacing

end Program

end Simplex
