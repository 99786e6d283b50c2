import Simplex.Proofs.Cycling.Position
import Simplex.Proofs.Tableau.Unique
/-! Why a basis does not come back where every tie goes to the least variable. Between two visits
    of a basis the objective stands still, so every pivot on the way is degenerate and one point
    is the point of all the bases. Of the variables that enter on the way the greatest one also
    leaves, and when it leaves, a lesser one of them bounds the same column with the same ratio
    and should have left in its place. -/

namespace Simplex.Position
open Program

/-- If the next step is a pivot, the leaving variable is the least of those
    whose rows have its ratio. -/
def LeastLeaves (x : Position) : Prop :=
  ∀ r e l, x.tableau.move x.nonbasic = .ok (.exchange r e l) →
    ∀ i < x.tableau.m, x.tableau.ratio? e i = x.tableau.ratio? e r →
      ∀ b, x.tableau.basicVariable x.nonbasic i = .ok b → l ≤ b

section Step
variable {x y : Position} {B : ℕ → ℕ} {r e : ℕ}

theorem Step.mem_nonbasic_iff (h : x.Step y B r e) (j : ℕ) :
    (j : ℤ) ∈ y.nonbasic ↔ j = B r ∨ ((j : ℤ) ∈ x.nonbasic ∧ j ≠ e) := by
  rw [h.nonbasic, IndexSet.mem_exchange, Nat.cast_inj, Ne, Nat.cast_inj]

/-- The entering variable is nonbasic before the step and basic after it. -/
theorem Step.notMem_entering (h : x.Step y B r e) : (e : ℤ) ∉ y.nonbasic := by
  rw [h.mem_nonbasic_iff]
  rintro (he | ⟨_, hne⟩)
  · exact h.basis.notMem h.enters.row (he ▸ h.enters.nonbasic)
  · exact hne rfl

/-- A step never lowers the constant. -/
theorem Step.constant_le (h : x.Step y B r e) (hx : x.Canonical) :
    x.tableau.constant ≤ y.tableau.constant := by
  have hc : 0 < x.tableau.cost e := hx.tolerance ▸ h.enters.cost
  rw [h.tableau, constant_pivot, le_add_iff_nonneg_right]
  exact div_nonneg (mul_nonneg hc.le (hx.nonneg r h.enters.row)) (h.enters.entry_pos hx.sharp).le

/-- A step that leaves the constant as it was is degenerate. -/
theorem Step.value_eq_zero (h : x.Step y B r e) (hx : x.Canonical)
    (hconstant : y.tableau.constant = x.tableau.constant) : x.tableau.value r = 0 := by
  have hc : 0 < x.tableau.cost e := hx.tolerance ▸ h.enters.cost
  rw [h.tableau, constant_pivot, add_eq_left, div_eq_zero_iff, mul_eq_zero] at hconstant
  rcases hconstant with (hcost | hvalue) | hentry
  · exact absurd hcost hc.ne'
  · exact hvalue
  · exact absurd hentry (h.enters.entry_pos hx.sharp).ne'

end Step

theorem mem_basis {x : Position} {j : ℕ} :
    j ∈ x.basis ↔ j < x.tableau.n ∧ (j : ℤ) ∉ x.nonbasic := by
  rw [basis, Finset.mem_filter, Finset.mem_range]

/-- A variable that costs less in another tableau than in its own stands for a basic one whose cost
    there has the opposite sign. -/
theorem exists_cost_mul_entry_neg {q p p' : Program ℚ} {nonbasic : List ℤ} {B : ℕ → ℕ} {e : ℕ}
    (hp : TableauOf q p) (hp' : TableauOf q p') (h : p.Basis nonbasic B) (he : e < p.n)
    (hlt : p'.cost e < p.cost e) : ∃ i < p.m, p'.cost (B i) * p.entry i e < 0 := by
  by_contra hnone
  have hsum : 0 ≤ ∑ i ∈ Finset.range p.m, p'.cost (B i) * p.entry i e :=
    Finset.sum_nonneg fun i hi => not_lt.1 fun hneg => hnone ⟨i, Finset.mem_range.1 hi, hneg⟩
  have hcost := hp.cost_eq hp' h he
  linarith

/-- The heart of the argument. Where the variable that leaves at `x` enters at `y`, some lesser
    variable has the same ratio. Both positions have the point `X`, and no variable that is basic
    at `x` only is greater. -/
theorem Step.exists_lesser {q : Program ℚ} {x x' y y' : Position} {B C : ℕ → ℕ} {r e r' e' : ℕ}
    {X : Point} (hx : x.Canonical) (hy : y.Canonical) (hp : TableauOf q x.tableau)
    (hp' : TableauOf q y.tableau) (h : x.Step x' B r e) (h' : y.Step y' C r' e')
    (hleaves : B r = e') (hle : e ≤ e') (hX : ∀ i < x.tableau.m, x.tableau.value i = X (B i))
    (hXr : x.tableau.value r = 0)
    (hXy : ∀ j < q.n, (j : ℤ) ∈ y.nonbasic → X j = 0)
    (hfickle : ∀ j < q.n, (j : ℤ) ∉ x.nonbasic → (j : ℤ) ∈ y.nonbasic → j ≤ e') :
    ∃ i < x.tableau.m, B i < B r ∧ x.tableau.ratio? e i = x.tableau.ratio? e r := by
  have hn : x.tableau.n = q.n := hp.n
  have hn' : y.tableau.n = q.n := hp'.n
  have hentry := h.enters.entry_pos hx.sharp
  have hce : 0 < x.tableau.cost e := hx.tolerance ▸ h.enters.cost
  have hce' : 0 < y.tableau.cost e' := hy.tolerance ▸ h'.enters.cost
  have hfirst : ∀ j < e', y.tableau.cost j ≤ 0 := fun j hj => hy.tolerance ▸ h'.enters.first j hj
  have hne : e ≠ e' := by
    rintro rfl
    exact h.basis.notMem h.enters.row (hleaves ▸ h.enters.nonbasic)
  have hlt : e < e' := lt_of_le_of_ne hle hne
  -- priced with the costs at y, column e of x loses: some row has a negative product
  obtain ⟨i, hi, hneg⟩ := exists_cost_mul_entry_neg hp hp' h.basis h.enters.column
    ((hfirst e hlt).trans_lt hce)
  have hcost : y.tableau.cost (B i) ≠ 0 := by
    intro hzero
    rw [hzero, zero_mul] at hneg
    exact lt_irrefl 0 hneg
  have hBi : B i < q.n := hn ▸ h.basis.lt i hi
  have hmem : (B i : ℤ) ∈ y.nonbasic := by
    obtain ⟨C, hC⟩ := hy.basis
    exact hC.mem_of_cost (hn'.symm ▸ hBi) hcost
  -- it is not row r, where both factors are positive
  have hir : B i ≠ e' := by
    intro heq
    have hrow : i = r := h.basis.injective hi h.enters.row (heq.trans hleaves.symm)
    rw [heq, hrow] at hneg
    exact absurd (mul_pos hce' hentry) (not_lt.2 hneg.le)
  have hless : B i < e' := lt_of_le_of_ne (hfickle _ hBi (h.basis.notMem hi) hmem) hir
  have hpos : 0 < x.tableau.entry i e := by
    have hnegcost := lt_of_le_of_ne (hfirst _ hless) hcost
    exact pos_of_mul_neg_right hneg hnegcost.le
  -- the variable of row i is zero at y, so its ratio and the one of row r are both zero
  have hvalue : x.tableau.value i = 0 := (hX i hi).trans (hXy _ hBi hmem)
  refine ⟨i, hi, hleaves ▸ hless, ?_⟩
  rw [ratio?_eq_some hx.tolerance (hx.nonneg i hi) hpos,
    ratio?_eq_some hx.tolerance (hx.nonneg r h.enters.row) hentry, hvalue, hXr, zero_div, zero_div]

/-! ### From one visit to the next -/

section Return
variable {x : Position} {i j : ℕ}

/-- What every step keeps is kept from `a` to `b`. -/
theorem of_steps {P : ℕ → Prop} {a b : ℕ} (hab : a ≤ b)
    (hstep : ∀ k, a ≤ k → k < b → P k → P (k + 1)) (ha : P a) : P b := by
  induction b, hab using Nat.le_induction with
  | base => exact ha
  | succ b hab ih => exact hstep b hab b.lt_succ_self (ih fun k hak hkb => hstep k hak (by omega))

variable (hx : x.Canonical) (hlasts : x.Lasts j) (hij : i < j)
  (hback : (x.after i).basis = (x.after j).basis)
include hx hback

theorem mem_nonbasic_iff_of_return {v : ℕ} (hv : v < x.tableau.n) :
    (v : ℤ) ∈ (x.after i).nonbasic ↔ (v : ℤ) ∈ (x.after j).nonbasic := by
  have hiff : v ∈ (x.after i).basis ↔ v ∈ (x.after j).basis := by rw [hback]
  rwa [mem_basis, mem_basis, hx.n_after, hx.n_after, and_congr_right_iff, imp_iff_right hv,
    not_iff_not] at hiff

/-- The constant is the same at both visits. -/
theorem constant_eq_of_return : (x.after i).tableau.constant = (x.after j).tableau.constant := by
  obtain ⟨B, hB⟩ := (hx.after i).basis
  obtain ⟨C, hC⟩ := (hx.after j).basis
  refine (hx.tableauOf_after i).constant_eq (hx.tableauOf_after j) hB hC fun v hv hmem => ?_
  rw [hx.n_after] at hv
  exact hB.spread_nonbasic _ (by rwa [hx.n_after]) ((mem_nonbasic_iff_of_return hx hback hv).2 hmem)

include hlasts

/-- No step on the way moves the constant. -/
theorem constant_eq_of_between {k : ℕ} (hik : i ≤ k) (hkj : k ≤ j) :
    (x.after k).tableau.constant = (x.after i).tableau.constant := by
  have hmono : ∀ {a b}, a ≤ b → b ≤ j →
      (x.after a).tableau.constant ≤ (x.after b).tableau.constant := fun {a b} hab hbj => by
    refine of_steps (P := fun k => (x.after a).tableau.constant ≤ (x.after k).tableau.constant) hab
      (fun k _ hkb hk => ?_) le_rfl
    obtain ⟨B, r, e, hstep⟩ := hlasts.step hx (hkb.trans_le hbj)
    exact hk.trans (hstep.constant_le (hx.after k))
  refine le_antisymm ?_ (hmono hik hkj)
  rw [constant_eq_of_return hx hback]
  exact hmono hkj le_rfl

/-- Every step on the way is degenerate. -/
theorem Step.value_eq_zero_of_between {k : ℕ} (hik : i ≤ k) (hkj : k < j) {B : ℕ → ℕ} {r e : ℕ}
    (hstep : (x.after k).Step (x.after (k + 1)) B r e) : (x.after k).tableau.value r = 0 := by
  refine hstep.value_eq_zero (hx.after k) ?_
  rw [constant_eq_of_between hx hlasts hback (by omega) hkj,
    constant_eq_of_between hx hlasts hback hik hkj.le]

/-- One point is the point of all bases on the way. -/
theorem exists_point_of_return : ∃ X, ∀ k, i ≤ k → k ≤ j → x.tableau.Solves X ∧
    ∀ v < x.tableau.n, (v : ℤ) ∈ (x.after k).nonbasic → X v = 0 := by
  obtain ⟨C, hC⟩ := (hx.after i).basis
  have hX : x.tableau.Solves ((x.after i).tableau.basicPoint C) :=
    ((hx.tableauOf_after i).solves _).1 hC.solves_basicPoint
  refine ⟨_, fun k hik hkj => ⟨hX, ?_⟩⟩
  refine of_steps (P := fun k => ∀ v < x.tableau.n, (v : ℤ) ∈ (x.after k).nonbasic →
    (x.after i).tableau.basicPoint C v = 0) hik (fun k hik hk hzero v hv hmem => ?_)
      fun v hv hmem => ?_
  · obtain ⟨B, r, e, hstep⟩ := hlasts.step hx (hk.trans_le hkj)
    rcases (hstep.mem_nonbasic_iff v).1 hmem with rfl | ⟨hmem, _⟩
    · have hpoint := hstep.basis.eq_basicPoint (((hx.tableauOf_after k).solves _).2 hX)
        (fun v hv => hzero v (hx.n_after k ▸ hv)) (by rwa [hx.n_after])
      rw [hpoint, basicPoint, hstep.basis.spread_basic _ hstep.enters.row]
      exact hstep.value_eq_zero_of_between hx hlasts hback hik (hk.trans_le hkj)
    · exact hzero v hv hmem
  · exact hC.spread_nonbasic _ (by rwa [hx.n_after]) hmem

omit hlasts

/-- A variable that is basic at one time on the way and nonbasic at another
    has entered on the way. -/
theorem exists_entering {v a b : ℕ} (hv : v < x.tableau.n) (hlasts : x.Lasts j) (hia : i ≤ a)
    (haj : a ≤ j) (hib : i ≤ b) (hbj : b ≤ j) (ha : (v : ℤ) ∉ (x.after a).nonbasic)
    (hb : (v : ℤ) ∈ (x.after b).nonbasic) :
    ∃ k B r, i ≤ k ∧ k < j ∧ (x.after k).Step (x.after (k + 1)) B r v := by
  by_contra hnone
  have hkeep : ∀ k, i ≤ k → k < j → (v : ℤ) ∈ (x.after k).nonbasic →
      (v : ℤ) ∈ (x.after (k + 1)).nonbasic := by
    intro k hik hkj hk
    obtain ⟨B, r, e, hstep⟩ := hlasts.step hx hkj
    refine (hstep.mem_nonbasic_iff v).2 (.inr ⟨hk, ?_⟩)
    rintro rfl
    exact hnone ⟨k, B, r, hik, hkj, hstep⟩
  have hj : (v : ℤ) ∈ (x.after j).nonbasic :=
    of_steps hbj (fun k hk hkj => hkeep k (by omega) hkj) hb
  have hi := (mem_nonbasic_iff_of_return hx hback hv).2 hj
  exact ha (of_steps hia (fun k hk hka => hkeep k hk (by omega)) hi)

/-- A variable that enters on the way also leaves on the way. -/
theorem Step.exists_leaving {k r v : ℕ} {B : ℕ → ℕ} (hlasts : x.Lasts j) (hik : i ≤ k) (hkj : k < j)
    (hstep : (x.after k).Step (x.after (k + 1)) B r v) :
    ∃ l C c e, i ≤ l ∧ l < j ∧ (x.after l).Step (x.after (l + 1)) C c e ∧ C c = v := by
  by_contra hnone
  have hv : v < x.tableau.n := hx.n_after k ▸ hstep.enters.column
  have hkeep : ∀ l, i ≤ l → l < j → (v : ℤ) ∉ (x.after l).nonbasic →
      (v : ℤ) ∉ (x.after (l + 1)).nonbasic := by
    intro l hil hlj hl hmem
    obtain ⟨C, c, e, hstep'⟩ := hlasts.step hx hlj
    rcases (hstep'.mem_nonbasic_iff v).1 hmem with heq | ⟨hmem, _⟩
    · exact hnone ⟨l, C, c, e, hil, hlj, hstep', heq.symm⟩
    · exact hl hmem
  have hj : (v : ℤ) ∉ (x.after j).nonbasic :=
    of_steps (P := fun l => (v : ℤ) ∉ (x.after l).nonbasic) hkj
      (fun l hl hlj => hkeep l (by omega) hlj)
      hstep.notMem_entering
  have hi : (v : ℤ) ∉ (x.after i).nonbasic := by
    intro hmem
    exact hj ((mem_nonbasic_iff_of_return hx hback hv).1 hmem)
  exact of_steps (P := fun l => (v : ℤ) ∉ (x.after l).nonbasic) hik
    (fun l hl hlk => hkeep l hl (by omega)) hi hstep.enters.nonbasic

end Return

/-- No basis comes back in a search in which the least variable leaves at every tie. -/
theorem Canonical.basis_ne {x : Position} (hx : x.Canonical) {i j : ℕ} (hij : i < j)
    (hlasts : x.Lasts j) (hleast : ∀ k < j, (x.after k).LeastLeaves) :
    (x.after i).basis ≠ (x.after j).basis := by
  classical
  intro hback
  -- the greatest variable that enters on the way
  let entering := (Finset.range x.tableau.n).filter fun v =>
    ∃ k B r, i ≤ k ∧ k < j ∧ (x.after k).Step (x.after (k + 1)) B r v
  have hmem : ∀ {v k r B}, i ≤ k → k < j → (x.after k).Step (x.after (k + 1)) B r v →
      v ∈ entering :=
    fun {v k r B} hik hkj hstep => Finset.mem_filter.2
      ⟨Finset.mem_range.2 (hx.n_after k ▸ hstep.enters.column), k, B, r, hik, hkj, hstep⟩
  obtain ⟨B₀, r₀, e₀, hstep₀⟩ := hlasts.step hx hij
  obtain ⟨t, ht, hmax⟩ := entering.exists_max_image id ⟨e₀, hmem le_rfl hij hstep₀⟩
  obtain ⟨b, C, r', hib, hbj, henters⟩ := (Finset.mem_filter.1 ht).2
  obtain ⟨a, B, r, e, hia, haj, hleaves, hBr⟩ := henters.exists_leaving hx hback hlasts hib hbj
  obtain ⟨X, hX⟩ := exists_point_of_return hx hlasts hback
  have hbasic : ∀ l < (x.after a).tableau.m, (x.after a).tableau.value l = X (B l) := by
    intro l hl
    obtain ⟨hsolves, hzero⟩ := hX a hia haj.le
    have hpoint := hleaves.basis.eq_basicPoint (((hx.tableauOf_after a).solves _).2 hsolves)
      (fun v hv => hzero v (hx.n_after a ▸ hv)) (hleaves.basis.lt l hl)
    rw [hpoint, basicPoint, hleaves.basis.spread_basic _ hl]
  obtain ⟨l, hl, hless, hratio⟩ :=
    Step.exists_lesser (hx.after a) (hx.after b) (hx.tableauOf_after a)
    (hx.tableauOf_after b) hleaves henters hBr (hmax e (hmem hia haj hleaves)) hbasic
    (hleaves.value_eq_zero_of_between hx hlasts hback hia haj) (hX b hib hbj.le).2
    (fun v hv hva hvb => by
      obtain ⟨k, D, d, hik, hkj, hstep⟩ :=
        exists_entering hx hback hv hlasts hia haj.le hib hbj.le hva hvb
      exact hmax v (hmem hik hkj hstep))
  have hvariable : (x.after a).tableau.basicVariable (x.after a).nonbasic l = .ok (B l) := by
    rw [basicVariable, hleaves.basis.candidates_eq (hx.after a).sharp hl]
  exact absurd (hleast a haj r e (B r) hleaves.move l hl hratio (B l) hvariable) (not_le.2 hless)

end Simplex.Position
