import Simplex.Proofs.Tableau.Basis
/-! The point of a basis: every basic variable has the right-hand side of its row, and all other
    variables are zero. It solves the rows, and the objective has the constant for its value
    there. Two facts about it end a search: if no cost is positive it is the best of the
    non-negative solutions, and if a column with a positive cost has no positive coefficient,
    going along that column never ends. -/

namespace Simplex.Program

/-- The point that is `v i` at the variable `B i` of each row and zero elsewhere. -/
def spread (m : ℕ) (B : ℕ → ℕ) (v : ℕ → ℚ) : Point :=
  fun j => ∑ i ∈ Finset.range m, if B i = j then v i else 0

/-- The point of a basis. -/
def basicPoint (p : Program ℚ) (B : ℕ → ℕ) : Point := spread p.m B p.value

/-- The solution in which the nonbasic variable `e` has the value `θ` and
    the other ones are zero. -/
def rayPoint (p : Program ℚ) (B : ℕ → ℕ) (e : ℕ) (θ : ℚ) : Point :=
  fun j => spread p.m B (fun i => p.value i - p.entry i e * θ) j + if j = e then θ else 0

theorem sum_mul_spread {n m : ℕ} {B : ℕ → ℕ} (hB : ∀ i < m, B i < n) (a v : ℕ → ℚ) :
    ∑ j ∈ Finset.range n, a j * spread m B v j = ∑ i ∈ Finset.range m, a (B i) * v i := by
  simp only [spread, Finset.mul_sum]
  rw [Finset.sum_comm]
  refine Finset.sum_congr rfl fun i hi => ?_
  rw [Finset.sum_eq_single (B i)]
  · rw [if_pos rfl]
  · intro j _ hj
    rw [if_neg (Ne.symm hj), mul_zero]
  · intro hn
    exact absurd (Finset.mem_range.2 (hB i (Finset.mem_range.1 hi))) hn

theorem sum_mul_single {n e : ℕ} (he : e < n) (a : ℕ → ℚ) (θ : ℚ) :
    ∑ j ∈ Finset.range n, a j * (if j = e then θ else 0) = a e * θ := by
  rw [Finset.sum_eq_single e]
  · rw [if_pos rfl]
  · intro j _ hj
    rw [if_neg hj, mul_zero]
  · intro hn
    exact absurd (Finset.mem_range.2 he) hn

/-- Each row has a variable of its own, so the point has the value of the row there. -/
theorem spread_of_injective {m : ℕ} {B : ℕ → ℕ} (hB : ∀ {i k}, i < m → k < m → B i = B k → i = k)
    (v : ℕ → ℚ) {i : ℕ} (hi : i < m) : spread m B v (B i) = v i := by
  rw [spread, Finset.sum_eq_single i]
  · rw [if_pos rfl]
  · intro k hk hne
    exact if_neg fun hki => hne (hB (Finset.mem_range.1 hk) hi hki)
  · intro hn
    exact absurd (Finset.mem_range.2 hi) hn

theorem spread_eq_zero {m j : ℕ} {B : ℕ → ℕ} (v : ℕ → ℚ) (hj : ∀ i < m, B i ≠ j) :
    spread m B v j = 0 :=
  Finset.sum_eq_zero fun i hi => if_neg (hj i (Finset.mem_range.1 hi))

theorem spread_nonneg {m : ℕ} {B : ℕ → ℕ} {v : ℕ → ℚ} (hv : ∀ i < m, 0 ≤ v i) (j : ℕ) :
    0 ≤ spread m B v j :=
  Finset.sum_nonneg fun i hi => by
    split_ifs
    · exact hv i (Finset.mem_range.1 hi)
    · exact le_rfl

/-- Costs that are not positive leave no non-negative solution above the constant. -/
theorem objectiveAt_le {p : Program ℚ} {x : Point} (hc : ∀ j < p.n, p.cost j ≤ 0)
    (hx : p.NonNegative x) : p.objectiveAt x ≤ p.constant := by
  have hsum : ∑ j ∈ Finset.range p.n, p.cost j * x j ≤ 0 :=
    Finset.sum_nonpos fun j hj =>
      mul_nonpos_of_nonpos_of_nonneg (hc j (Finset.mem_range.1 hj)) (hx j (Finset.mem_range.1 hj))
  rw [objectiveAt]
  linarith

namespace Basis
variable {p : Program ℚ} {nonbasic : List ℤ} {B : ℕ → ℕ}

theorem spread_basic (h : p.Basis nonbasic B) (v : ℕ → ℚ) {i : ℕ} (hi : i < p.m) :
    spread p.m B v (B i) = v i :=
  spread_of_injective h.injective v hi

theorem spread_nonbasic (h : p.Basis nonbasic B) (v : ℕ → ℚ) {j : ℕ} (hj : j < p.n)
    (hmem : (j : ℤ) ∈ nonbasic) : spread p.m B v j = 0 :=
  spread_eq_zero v ((h.mem_iff j hj).1 hmem)

theorem rowAt_spread (h : p.Basis nonbasic B) (v : ℕ → ℚ) {k : ℕ} (hk : k < p.m) :
    p.rowAt k (spread p.m B v) = v k := by
  rw [rowAt, sum_mul_spread h.lt, Finset.sum_eq_single k]
  · rw [h.unit k hk k hk, if_pos rfl, one_mul]
  · intro i hi hne
    rw [h.unit i (Finset.mem_range.1 hi) k hk, if_neg (Ne.symm hne), zero_mul]
  · intro hn
    exact absurd (Finset.mem_range.2 hk) hn

theorem sum_cost_spread (h : p.Basis nonbasic B) (v : ℕ → ℚ) :
    ∑ j ∈ Finset.range p.n, p.cost j * spread p.m B v j = 0 := by
  rw [sum_mul_spread h.lt]
  exact Finset.sum_eq_zero fun i hi => by rw [h.cost i (Finset.mem_range.1 hi), zero_mul]

/-! ### The point of the basis -/

theorem solves_basicPoint (h : p.Basis nonbasic B) : p.Solves (p.basicPoint B) :=
  fun _ hk => h.rowAt_spread p.value hk

theorem objectiveAt_basicPoint (h : p.Basis nonbasic B) :
    p.objectiveAt (p.basicPoint B) = p.constant := by
  rw [objectiveAt, basicPoint, h.sum_cost_spread, add_zero]

/-! ### Going along a column -/

theorem solves_rayPoint (h : p.Basis nonbasic B) {e : ℕ} (he : e < p.n) (θ : ℚ) :
    p.Solves (p.rayPoint B e θ) := by
  intro k hk
  simp only [rowAt, rayPoint, mul_add, Finset.sum_add_distrib, sum_mul_single he]
  have hspread := h.rowAt_spread (fun i => p.value i - p.entry i e * θ) hk
  rw [rowAt] at hspread
  rw [hspread]
  ring

theorem objectiveAt_rayPoint (h : p.Basis nonbasic B) {e : ℕ} (he : e < p.n) (θ : ℚ) :
    p.objectiveAt (p.rayPoint B e θ) = p.constant + p.cost e * θ := by
  simp only [objectiveAt, rayPoint, mul_add, Finset.sum_add_distrib, sum_mul_single he,
    h.sum_cost_spread, zero_add]

theorem nonNegative_rayPoint {e : ℕ} {θ : ℚ} (hθ : 0 ≤ θ) (hb : ∀ i < p.m, 0 ≤ p.value i)
    (hcol : ∀ i < p.m, p.entry i e ≤ 0) : p.NonNegative (p.rayPoint B e θ) := by
  intro j _
  refine add_nonneg (spread_nonneg (fun i hi => ?_) j) ?_
  · have := mul_nonpos_of_nonpos_of_nonneg (hcol i hi) hθ
    linarith [hb i hi]
  · split_ifs
    · exact hθ
    · exact le_rfl

/-- A positive cost over a column without positive coefficients lets the objective grow for ever. -/
theorem exists_objectiveAt_gt (h : p.Basis nonbasic B) {e : ℕ} (he : e < p.n)
    (hb : ∀ i < p.m, 0 ≤ p.value i) (hc : 0 < p.cost e) (hcol : ∀ i < p.m, p.entry i e ≤ 0)
    (K : ℚ) :
    ∃ x, p.Solves x ∧ p.NonNegative x ∧ K < p.objectiveAt x := by
  let θ := max 0 ((K - p.constant) / p.cost e + 1)
  refine ⟨p.rayPoint B e θ, h.solves_rayPoint he θ,
    nonNegative_rayPoint (le_max_left _ _) hb hcol, ?_⟩
  have hθ : (K - p.constant) / p.cost e < θ := by
    have := le_max_right 0 ((K - p.constant) / p.cost e + 1)
    linarith
  rw [h.objectiveAt_rayPoint he]
  rw [div_lt_iff₀ hc] at hθ
  linarith

end Basis

/-! ### The point as a list of coordinates -/

theorem getD_foldl_set_of_notMem {ps : List (ℕ × ℚ)} {j : ℕ} (hj : j ∉ ps.map Prod.fst) :
    ∀ {xs : List ℚ}, j < xs.length →
      (ps.foldl (fun x (j, b) => x.set j b) xs).getD j 0 = xs.getD j 0 := by
  induction ps with
  | nil => intro xs _; rfl
  | cons q ps ih =>
    intro xs hx
    simp only [List.map_cons, List.mem_cons, not_or] at hj
    rw [List.foldl_cons, ih hj.2 (by simpa using hx), getD_set hx, if_neg hj.1]

theorem getD_foldl_set_of_mem {ps : List (ℕ × ℚ)} (hps : (ps.map Prod.fst).Nodup) {j : ℕ} {b : ℚ}
    (hj : (j, b) ∈ ps) : ∀ {xs : List ℚ}, j < xs.length →
      (ps.foldl (fun x (j, b) => x.set j b) xs).getD j 0 = b := by
  induction ps with
  | nil => simp at hj
  | cons q ps ih =>
    intro xs hx
    rw [List.map_cons, List.nodup_cons] at hps
    rw [List.foldl_cons]
    rcases List.mem_cons.1 hj with rfl | hj
    · rw [getD_foldl_set_of_notMem hps.1 (by simpa using hx), getD_set hx, if_pos rfl]
    · exact ih hps.2 hj (by simpa using hx)

/-- The list of the point has the coordinates of the point. -/
theorem getD_pointOf {n m : ℕ} {B : ℕ → ℕ} {values : List ℚ} (hlength : values.length = m)
    (hB : ∀ {i k}, i < m → k < m → B i = B k → i = k) {j : ℕ} (hj : j < n) :
    (pointOf n ((List.range m).map B) values).getD j 0 = spread m B (values.getD · 0) j := by
  have hkeys : (((List.range m).map B).zip values).map Prod.fst = (List.range m).map B :=
    List.map_fst_zip (by simp [hlength])
  have hj' : j < (List.replicate n (0 : ℚ)).length := by simpa using hj
  rw [pointOf]
  by_cases hmem : ∃ i < m, B i = j
  · obtain ⟨i, hi, rfl⟩ := hmem
    rw [spread_of_injective hB _ hi]
    refine getD_foldl_set_of_mem ?_ ?_ hj'
    · rw [hkeys]
      exact List.Nodup.map_on
        (fun a ha b hb hab => hB (List.mem_range.1 ha) (List.mem_range.1 hb) hab) List.nodup_range
    · rw [List.mem_iff_getElem]
      exact ⟨i, by simpa [hlength] using hi, by simp [hlength, hi]⟩
  · have hno : ∀ i < m, B i ≠ j := fun i hi hij => hmem ⟨i, hi, hij⟩
    rw [spread_eq_zero _ hno, getD_foldl_set_of_notMem _ hj']
    · simp [List.getD_eq_getElem?_getD, hj]
    · rw [hkeys, List.mem_map]
      rintro ⟨i, hi, hij⟩
      exact hno i (List.mem_range.1 hi) hij

/-- Beyond the list and beyond the variables of the rows everything is zero. -/
theorem pointAt_pointOf {n m : ℕ} {B : ℕ → ℕ} {values : List ℚ} (hlength : values.length = m)
    (hlt : ∀ i < m, B i < n) (hB : ∀ {i k}, i < m → k < m → B i = B k → i = k) :
    pointAt (pointOf n ((List.range m).map B) values) = spread m B (values.getD · 0) := by
  funext j
  rcases Nat.lt_or_ge j n with hj | hj
  · exact getD_pointOf hlength hB hj
  · rw [spread_eq_zero _ fun i hi => ((hlt i hi).trans_le hj).ne]
    exact List.getD_eq_default _ _ (by rwa [length_pointOf])

namespace Basis
variable {p : Program ℚ} {nonbasic : List ℤ} {B : ℕ → ℕ}

/-- The list of the point of the basis has the coordinates of that point. -/
theorem getD_pointOf (h : p.Basis nonbasic B) {j : ℕ} (hj : j < p.n) :
    (pointOf p.n ((List.range p.m).map B) p.rhs).getD j 0 = p.basicPoint B j :=
  Program.getD_pointOf rfl h.injective hj

theorem solution_eq (h : p.Basis nonbasic B) (hs : p.Sharp) :
    p.solution nonbasic = .ok (pointOf p.n ((List.range p.m).map B) p.rhs) := by
  rw [solution, h.basicVariables_eq hs]
  rfl

end Basis

end Simplex.Program
