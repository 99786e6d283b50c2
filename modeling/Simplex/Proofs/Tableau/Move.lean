import Simplex.Proofs.Tableau.BasicPoint
import Simplex.Tableau.Search
/-! One step of the search on a tableau with a basis. It stops where no cost is above the tolerance
    or where a column bounds nothing, and otherwise exchanges a variable: there is no third way, so
    no lookup can fail. Without tolerance an exchange keeps the right-hand sides from becoming
    negative, since the leaving row has the least of the ratios. -/

namespace Simplex.Program
variable {p : Program ℚ}

/-! ### The entering variable -/

theorem entering?_eq_none (h : p.entering? = none) : ∀ j < p.n, p.cost j ≤ p.tolerance := by
  intro j hj
  have hnone := List.findIdx?_eq_none_iff.1 h _ (getD_mem hj 0)
  rwa [Scalar.lt_rat, decide_eq_false_iff_not, not_lt] at hnone

theorem entering?_eq_some {e : ℕ} (h : p.entering? = some e) :
    e < p.n ∧ p.tolerance < p.cost e ∧ ∀ j < e, p.cost j ≤ p.tolerance := by
  obtain ⟨he, hpos, hbefore⟩ := List.findIdx?_eq_some_iff_getElem.1 h
  refine ⟨he, ?_, ?_⟩
  · rw [Scalar.lt_rat, decide_eq_true_eq] at hpos
    rwa [cost, List.getD_eq_getElem _ _ he]
  · intro j hj
    have := hbefore j hj
    rw [Scalar.lt_rat, decide_eq_true_eq, not_lt] at this
    rwa [cost, List.getD_eq_getElem _ _ (hj.trans he)]

/-! ### The leaving row -/

theorem ratio?_eq_none {e i : ℕ} : p.ratio? e i = none ↔ p.entry i e ≤ p.tolerance := by
  simp [ratio?]

theorem lt_entry_of_ratio? {e i : ℕ} {q : ℚ} (h : p.ratio? e i = some q) :
    p.tolerance < p.entry i e := by
  by_contra hle
  rw [ratio?_eq_none.2 (not_lt.1 hle)] at h
  cases h

/-- Without tolerance the ratio of a row is that of its right-hand side to its coefficient. -/
theorem ratio?_eq_some {e i : ℕ} (ht : p.tolerance = 0) (hb : 0 ≤ p.value i)
    (ha : 0 < p.entry i e) :
    p.ratio? e i = some (p.value i / p.entry i e) := by
  have hpos : Scalar.le (p.entry i e) p.tolerance = false := by
    rw [Scalar.le_rat, ht, decide_eq_false (not_le.2 ha)]
  simp only [ratio?, hpos, Scalar.clamp_of_nonneg hb, ite_self, Bool.false_eq_true, if_false]

/-- The best of the first `k` rows: none of them bounds the entering variable, or it is the
    first of the least ratio. -/
structure Best (p : Program ℚ) (e k : ℕ) (best : Option (ℕ × ℚ)) : Prop where
  none_of : best = none → ∀ i < k, p.ratio? e i = none
  lt : ∀ {r q}, best = some (r, q) → r < k
  ratio : ∀ {r q}, best = some (r, q) → p.ratio? e r = some q
  least : ∀ {r q}, best = some (r, q) → ∀ i < k, ∀ q', p.ratio? e i = some q' → q ≤ q' ∧
    (i < r → q < q')

/-- Row `k` is the best of the rows up to it if its ratio is less than all before. -/
theorem Best.take {e k : ℕ} {q : ℚ} (hk : p.ratio? e k = some q)
    (hlt : ∀ i < k, ∀ q', p.ratio? e i = some q' → q < q') : p.Best e (k + 1) (some (k, q)) := by
  refine ⟨by simp, ?_, ?_, ?_⟩
  · intro r q' hs
    cases hs
    exact Nat.lt_succ_self k
  · intro r q' hs
    cases hs
    exact hk
  · intro r least hs i hi q' hq'
    cases hs
    rcases Nat.lt_succ_iff_lt_or_eq.1 hi with hi | rfl
    · exact ⟨(hlt i hi q' hq').le, fun _ => hlt i hi q' hq'⟩
    · rw [hk] at hq'
      cases hq'
      exact ⟨le_rfl, fun hlt => absurd hlt (lt_irrefl _)⟩

/-- The best row so far stays the best if row `k` bounds nothing or has no lesser ratio. -/
theorem Best.keep {e k : ℕ} {best : Option (ℕ × ℚ)} (h : p.Best e k best)
    (hk : ∀ q', p.ratio? e k = some q' → ∃ r q, best = some (r, q) ∧ q ≤ q') :
    p.Best e (k + 1) best := by
  refine ⟨?_, fun hs => (h.lt hs).trans (Nat.lt_succ_self k), h.ratio, ?_⟩
  · intro hn i hi
    rcases Nat.lt_succ_iff_lt_or_eq.1 hi with hi | rfl
    · exact h.none_of hn i hi
    · cases hratio : p.ratio? e i with
      | none => rfl
      | some q' =>
        obtain ⟨r, q, hs, _⟩ := hk q' hratio
        rw [hn] at hs
        cases hs
  · intro r least hs i hi q' hq'
    rcases Nat.lt_succ_iff_lt_or_eq.1 hi with hi | rfl
    · exact h.least hs i hi q' hq'
    · obtain ⟨r, q, hs', hle⟩ := hk q' hq'
      rw [hs] at hs'
      cases hs'
      exact ⟨hle, fun hir => absurd (h.lt hs) hir.asymm⟩

theorem Best.step {e k : ℕ} {best : Option (ℕ × ℚ)} (h : p.Best e k best) :
    p.Best e (k + 1) (p.betterRow e best k) := by
  cases hk : p.ratio? e k with
  | none =>
    have hsame : p.betterRow e best k = best := by simp only [betterRow, hk]
    rw [hsame]
    refine h.keep fun q' hq' => ?_
    rw [hk] at hq'
    cases hq'
  | some q =>
    cases best with
    | none =>
      have hfirst : p.betterRow e none k = some (k, q) := by
        simp only [betterRow, hk, Scalar.bounded_rat, if_true]
      rw [hfirst]
      refine .take hk fun i hi q' hq' => ?_
      rw [h.none_of rfl i hi] at hq'
      cases hq'
    | some old =>
      obtain ⟨r, least⟩ := old
      have hchoice : p.betterRow e (some (r, least)) k =
          if q < least then some (k, q) else some (r, least) := by
        simp only [betterRow, hk, Scalar.lt_rat, decide_eq_true_eq]
      rw [hchoice]
      split_ifs with hlt
      · exact .take hk fun i hi q' hq' => hlt.trans_le (h.least rfl i hi q' hq').1
      · -- a tie keeps the earlier row
        refine h.keep fun q' hq' => ⟨r, least, rfl, ?_⟩
        rw [hk] at hq'
        cases hq'
        exact not_lt.1 hlt

theorem best_foldl (p : Program ℚ) (e : ℕ) :
    ∀ k, p.Best e k ((List.range k).foldl (p.betterRow e) none)
  | 0 => ⟨fun _ i hi => absurd hi (Nat.not_lt_zero i), by simp, by simp, by simp⟩
  | k + 1 => by
    rw [List.range_succ, List.foldl_append]
    exact (best_foldl p e k).step

theorem leavingRow?_eq_none {e : ℕ} (h : p.leavingRow? e = none) :
    ∀ i < p.m, p.entry i e ≤ p.tolerance := fun i hi =>
  ratio?_eq_none.1 ((best_foldl p e p.m).none_of (Option.map_eq_none_iff.1 h) i hi)

/-- The leaving row is the first of those with the least ratio. -/
theorem leavingRow?_eq_some {e r : ℕ} (h : p.leavingRow? e = some r) :
    ∃ q, r < p.m ∧ p.ratio? e r = some q ∧
      ∀ i < p.m, ∀ q', p.ratio? e i = some q' → q ≤ q' ∧ (i < r → q < q') := by
  obtain ⟨⟨r', q⟩, hbest, rfl⟩ := Option.map_eq_some_iff.1 h
  have hb := best_foldl p e p.m
  exact ⟨q, hb.lt hbest, hb.ratio hbest, hb.least hbest⟩

/-! ### The step -/

/-- Variable `e` enters the basis at row `r`. -/
structure Enters (p : Program ℚ) (nonbasic : List ℤ) (r e : ℕ) : Prop where
  column : e < p.n
  cost : p.tolerance < p.cost e
  first : ∀ j < e, p.cost j ≤ p.tolerance
  nonbasic : (e : ℤ) ∈ nonbasic
  row : r < p.m
  entry : p.tolerance < p.entry r e
  leaving : p.leavingRow? e = some r

/-- All that a step can do. -/
theorem Basis.move_cases {nonbasic : List ℤ} {B : ℕ → ℕ} (h : p.Basis nonbasic B) (hs : p.Sharp) :
    (p.move nonbasic = .ok (.stop (.optimal nonbasic)) ∧ ∀ j < p.n, p.cost j ≤ p.tolerance) ∨
    (∃ e, p.move nonbasic = .ok (.stop .unbounded) ∧ e < p.n ∧ p.tolerance < p.cost e ∧
      ∀ i < p.m, p.entry i e ≤ p.tolerance) ∨
    ∃ r e, p.move nonbasic = .ok (.exchange r e (B r)) ∧ p.Enters nonbasic r e := by
  cases he : p.entering? with
  | none =>
    refine .inl ⟨?_, entering?_eq_none he⟩
    simp only [move, he]
  | some e =>
    obtain ⟨hn, hc, hfirst⟩ := entering?_eq_some he
    cases hr : p.leavingRow? e with
    | none =>
      refine .inr (.inl ⟨e, ?_, hn, hc, leavingRow?_eq_none hr⟩)
      simp only [move, he, hr]
    | some r =>
      obtain ⟨q, hm, hq, _⟩ := leavingRow?_eq_some hr
      have hmem := h.mem_of_cost hn (hs.nonneg.trans_lt hc).ne'
      refine .inr (.inr ⟨r, e, ?_, hn, hc, hfirst, hmem, hm, lt_entry_of_ratio? hq, hr⟩)
      simp only [move, he, hr, h.leavingVariable_eq hs hm]
      exact if_pos (List.contains_iff_mem.2 hmem)

namespace Enters
variable {nonbasic : List ℤ} {r e : ℕ}

theorem entry_pos (h : p.Enters nonbasic r e) (hs : p.Sharp) : 0 < p.entry r e :=
  hs.nonneg.trans_lt h.entry

/-- Without tolerance the right-hand sides stay non-negative. -/
theorem value_pivot_nonneg (h : p.Enters nonbasic r e) (hp : p.Rectangular) (ht : p.tolerance = 0)
    (hb : ∀ i < p.m, 0 ≤ p.value i) {i : ℕ} (hi : i < p.m) : 0 ≤ (p.pivot r e).value i := by
  have ha : 0 < p.entry r e := ht ▸ h.entry
  obtain ⟨q, _, hq, hleast⟩ := leavingRow?_eq_some h.leaving
  rw [ratio?_eq_some ht (hb r h.row) ha, Option.some.injEq] at hq
  subst hq
  rw [value_pivot hp hi]
  split_ifs with hir
  · exact div_nonneg (hb r h.row) ha.le
  · have hstep : p.entry i e * p.value r / p.entry r e = p.entry i e * (p.value r / p.entry r e) :=
      mul_div_assoc _ _ _
    rw [hstep, sub_nonneg]
    have hratio : 0 ≤ p.value r / p.entry r e := div_nonneg (hb r h.row) ha.le
    rcases le_or_gt (p.entry i e) 0 with hneg | hpos
    · exact (mul_nonpos_of_nonpos_of_nonneg hneg hratio).trans (hb i hi)
    · have hle := (hleast i hi _ (ratio?_eq_some ht (hb i hi) hpos)).1
      rw [le_div_iff₀ hpos] at hle
      linarith

end Enters

end Simplex.Program
