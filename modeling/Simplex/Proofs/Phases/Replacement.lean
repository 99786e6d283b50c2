import Simplex.Proofs.Phases.FirstPhase
import Simplex.Tableau.TwoPhase
/-! How the artificial variables leave the basis. A basic artificial variable gives its place
    to a structural one that stands in its row, by a pivot that need not be on a positive
    element. Where no structural variable stands in the row, the row is redundant and keeps
    its artificial variable. Without tolerance the rows in question have zero on the right, so
    these pivots move no right-hand side. -/

namespace Simplex.Program

section Replacement
variable {p : Program ℚ} {n i : ℕ}

theorem replacement?_eq_none (hp : p.Rectangular) (hi : i < p.m) (hn : n ≤ p.n)
    (h : p.replacement? n i = none) : ∀ j < n, |p.entry i j| ≤ p.tolerance := by
  intro j hj
  have hrow : j < (p.row i).length := by
    rw [row_length hp hi]
    exact hj.trans_le hn
  have hmem : p.entry i j ∈ (p.row i).take n := by
    rw [entry, List.getD_eq_getElem _ _ hrow]
    exact List.mem_take_iff_getElem.2 ⟨j, lt_min hj hrow, rfl⟩
  have hnot := List.findIdx?_eq_none_iff.1 h _ hmem
  rwa [Scalar.lt_rat, Scalar.abs_rat, decide_eq_false_iff_not, not_lt] at hnot

theorem replacement?_eq_some {e : ℕ} (h : p.replacement? n i = some e) :
    e < n ∧ p.tolerance < |p.entry i e| := by
  obtain ⟨he, hlt, _⟩ := List.findIdx?_eq_some_iff_getElem.1 h
  rw [List.length_take, lt_min_iff] at he
  rw [Scalar.lt_rat, Scalar.abs_rat, decide_eq_true_eq, List.getElem_take] at hlt
  refine ⟨he.1, ?_⟩
  rwa [entry, List.getD_eq_getElem _ _ he.2]

end Replacement

/-- Nothing but zeros stands where an artificial variable is basic. -/
structure Degenerate (n : ℕ) (redundant : List ℕ) (B : ℕ → ℕ) (p : Program ℚ) : Prop where
  entry : ∀ r ∈ redundant, ∀ j < n, p.entry r j = 0
  artificial : ∀ i < p.m, n ≤ B i → p.value i = 0
  nonneg : ∀ i < p.m, 0 ≤ p.value i

/-- A pivot in a row with zero on the right moves no right-hand side. -/
theorem value_pivot_of_zero {p : Program ℚ} (hp : p.Rectangular) {k e i : ℕ} (hzero : p.value k = 0)
    (hi : i < p.m) : (p.pivot k e).value i = p.value i := by
  rw [value_pivot hp hi, hzero, mul_zero, zero_div, sub_zero]
  split_ifs with hik
  · rw [hik, hzero]
  · rfl

/-- A structural variable that takes the place of an artificial one in row `k` leaves the
    zeros where they are. -/
theorem Degenerate.pivot {n k e : ℕ} {redundant : List ℕ} {B : ℕ → ℕ} {p : Program ℚ}
    (h : Degenerate n redundant B p) (hp : p.Rectangular) (hn : n ≤ p.n) (hk : k < p.m)
    (hart : n ≤ B k) (he : e < n) (ha : p.entry k e ≠ 0) (hred : ∀ r ∈ redundant, r < p.m ∧ r ≠ k) :
    Degenerate n redundant (Function.update B k e) (p.pivot k e) := by
  have hzero : p.value k = 0 := h.artificial k hk hart
  refine ⟨?_, ?_, ?_⟩
  · intro r hr j hj
    obtain ⟨hrm, hrk⟩ := hred r hr
    rw [entry_pivot hp hk ha hrm (hj.trans_le hn), if_neg hrk, h.entry r hr j hj, h.entry r hr e he,
      zero_mul, zero_div, sub_zero]
  · intro i hi hi'
    rw [m_pivot hp] at hi
    rw [value_pivot_of_zero hp hzero hi]
    by_cases hik : i = k
    · rw [hik, hzero]
    · rw [Function.update_of_ne hik] at hi'
      exact h.artificial i hi hi'
  · intro i hi
    rw [m_pivot hp] at hi
    rw [value_pivot_of_zero hp hzero hi]
    exact h.nonneg i hi

/-- A tableau of `q` with `n` structural variables in which the artificial variables among `rest`
    have yet to leave the basis, and those of the redundant rows stay in it. -/
structure Replacing (q : Program ℚ) (n : ℕ) (rest : List ℕ) (p : Program ℚ) (nonbasic : List ℤ)
    (redundant : List ℕ) (B : ℕ → ℕ) : Prop where
  tableau : TableauOf q p
  basis : p.Basis nonbasic B
  within : IndexSet.Within q.n nonbasic
  stays : ∀ r ∈ redundant, r < p.m ∧ n ≤ B r ∧ B r ∉ rest
  covered : ∀ i < p.m, n ≤ B i → B i ∈ rest ∨ i ∈ redundant
  degenerate : q.tolerance = 0 → Degenerate n redundant B p

namespace Replacing
variable {q p : Program ℚ} {n j : ℕ} {rest : List ℕ} {nonbasic : List ℤ} {redundant : List ℕ}
    {B : ℕ → ℕ}

/-- A nonbasic variable needs no replacement. -/
theorem skip (h : Replacing q n (j :: rest) p nonbasic redundant B) (hj : (j : ℤ) ∈ nonbasic) :
    Replacing q n rest p nonbasic redundant B := by
  refine ⟨h.tableau, h.basis, h.within, ?_, ?_, h.degenerate⟩
  · intro r hr
    obtain ⟨hm, hart, hnot⟩ := h.stays r hr
    exact ⟨hm, hart, fun hmem => hnot (List.mem_cons_of_mem j hmem)⟩
  · intro i hi hart
    rcases h.covered i hi hart with hmem | hmem
    · rcases List.mem_cons.1 hmem with rfl | hmem
      · exact absurd hj (h.basis.notMem hi)
      · exact .inl hmem
    · exact .inr hmem

/-- A row that offers no structural variable is redundant. -/
theorem keep {k : ℕ} (h : Replacing q n (B k :: rest) p nonbasic redundant B) (hk : k < p.m)
    (hart : n ≤ B k) (hrest : B k ∉ rest) (hn : n ≤ q.n) (hnone : p.replacement? n k = none)
    {redundant' : List ℕ} (hred : ∀ r, r ∈ redundant' ↔ r ∈ redundant ∨ r = k) :
    Replacing q n rest p nonbasic redundant' B := by
  have hzero := replacement?_eq_none h.tableau.rectangular hk (h.tableau.n.symm ▸ hn) hnone
  refine ⟨h.tableau, h.basis, h.within, ?_, ?_, ?_⟩
  · intro r hr
    rcases (hred r).1 hr with hr | rfl
    · obtain ⟨hm, hart, hnot⟩ := h.stays r hr
      exact ⟨hm, hart, fun hmem => hnot (List.mem_cons_of_mem _ hmem)⟩
    · exact ⟨hk, hart, hrest⟩
  · intro i hi hart
    rcases h.covered i hi hart with hmem | hmem
    · rcases List.mem_cons.1 hmem with hik | hmem
      · exact .inr ((hred i).2 (.inr (h.basis.injective hi hk hik)))
      · exact .inl hmem
    · exact .inr ((hred i).2 (.inl hmem))
  · -- at tolerance zero the new redundant row is zero in every structural column
    intro ht
    have hd := h.degenerate ht
    refine ⟨?_, hd.artificial, hd.nonneg⟩
    intro r hr j hj
    rcases (hred r).1 hr with hr | rfl
    · exact hd.entry r hr j hj
    · have := hzero j hj
      rwa [h.tableau.tolerance, ht, abs_nonpos_iff] at this

/-- The structural variable that is offered is nonbasic. -/
theorem replacement_nonbasic {k e : ℕ} (h : Replacing q n (B k :: rest) p nonbasic redundant B)
    (hk : k < p.m) (hart : n ≤ B k) (hn : n ≤ q.n) (hq : q.Sharp)
    (hsome : p.replacement? n k = some e) :
    (e : ℤ) ∈ nonbasic := by
  obtain ⟨he, hlt⟩ := replacement?_eq_some hsome
  have hpos : 0 < |p.entry k e| := (h.tableau.tolerance.symm ▸ hq.nonneg).trans_lt hlt
  exact h.basis.mem_of_entry hk (by rw [h.tableau.n]; omega) (by omega) (abs_pos.1 hpos)

/-- A structural variable takes the place of the artificial one. -/
theorem exchange {k e : ℕ} (h : Replacing q n (B k :: rest) p nonbasic redundant B) (hk : k < p.m)
    (hart : n ≤ B k) (hn : n ≤ q.n) (hq : q.Sharp) (hsome : p.replacement? n k = some e) :
    Replacing q n rest (p.pivot k e) (IndexSet.exchange e (B k) nonbasic) redundant
      (Function.update B k e) := by
  obtain ⟨he, hlt⟩ := replacement?_eq_some hsome
  have hp := h.tableau.rectangular
  have ha : p.entry k e ≠ 0 :=
    abs_pos.1 ((h.tableau.tolerance.symm ▸ hq.nonneg).trans_lt hlt)
  have hen : e < p.n := by
    rw [h.tableau.n]
    omega
  have hm := m_pivot (r := k) (s := e) hp
  -- a redundant row is not the pivot row, as its own artificial variable has been dealt with
  have hne : ∀ r ∈ redundant, r ≠ k := by
    rintro r hr rfl
    exact (h.stays r hr).2.2 List.mem_cons_self
  refine ⟨h.tableau.pivot hk ha,
    h.basis.pivot hp hk hen ha (h.replacement_nonbasic hk hart hn hq hsome),
    h.within.exchange (h.tableau.n ▸ h.basis.lt k hk), ?_, ?_,
    fun ht => (h.degenerate ht).pivot hp (h.tableau.n.symm ▸ hn) hk hart he ha
      fun r hr => ⟨(h.stays r hr).1, hne r hr⟩⟩
  · intro r hr
    obtain ⟨hrm, hrart, hnot⟩ := h.stays r hr
    rw [hm, Function.update_of_ne (hne r hr)]
    exact ⟨hrm, hrart, fun hmem => hnot (List.mem_cons_of_mem _ hmem)⟩
  · intro i hi hi'
    rw [hm] at hi
    have hik : i ≠ k := by
      rintro rfl
      rw [Function.update_self] at hi'
      omega
    rw [Function.update_of_ne hik] at hi' ⊢
    rcases h.covered i hi hi' with hmem | hmem
    · rcases List.mem_cons.1 hmem with heq | hmem
      · exact absurd (h.basis.injective hi hk heq) hik
      · exact .inl hmem
    · exact .inr hmem

/-- What the first phase has found is where the replacement starts. -/
theorem of_found {P : Program ℚ} {absolute : Bool} (h : Found P absolute p nonbasic)
    (hP : P.Rectangular) :
    ∃ B, Replacing (P.auxiliary absolute) P.n ((List.range p.n).drop P.n) p nonbasic [] B := by
  obtain ⟨B, hB, hart⟩ := h.artificial
  refine ⟨B, h.reached.tableau, hB, h.within, fun r hr => absurd hr List.not_mem_nil,
    fun i hi hi' => .inl (mem_drop_range.2 ⟨hi', hB.lt i hi⟩), ?_⟩
  intro ht
  have hnonneg := h.reached.nonneg ht fun _ hi => value_auxiliary_nonneg hP hi
  refine ⟨fun r hr => absurd hr List.not_mem_nil, ?_, hnonneg⟩
  intro i hi hi'
  have hle := hart i hi hi'
  rw [h.reached.tableau.tolerance, ht] at hle
  exact le_antisymm hle (hnonneg i hi)

end Replacing

end Simplex.Program

namespace Simplex.Action
open Program

/-- All artificial variables are dealt with, and without fault. -/
theorem Runs.replaceArtificials {q : Program ℚ} {n : ℕ} (hq : q.Sharp) (hn : n ≤ q.n) :
    ∀ {rest : List ℕ}, rest.Nodup → (∀ j ∈ rest, n ≤ j ∧ j < q.n) →
      ∀ {nonbasic : List ℤ} {redundant : List ℕ} {s : Session ℚ},
        (∃ B, Replacing q n rest s.program nonbasic redundant B) →
        Runs q.tolerance (Action.replaceArtificials n rest nonbasic redundant) s
          fun r s' => ∃ B, Replacing q n [] s'.program r.1 r.2 B := by
  intro rest
  -- on the artificial variables left to visit; `Replacing` carries what the visits so far did
  induction rest with
  | nil =>
    intro _ _ nonbasic redundant s h
    exact pure h
  | cons j rest ih =>
    rintro hnodup hrest nonbasic redundant s ⟨B, h⟩
    obtain ⟨hjrest, hlater⟩ := List.nodup_cons.1 hnodup
    obtain ⟨hart, hjn⟩ := hrest j List.mem_cons_self
    have ih := @ih hlater fun i hi => hrest i (List.mem_cons_of_mem j hi)
    have hs : s.program.Sharp := hq.congr h.tableau.tolerance
    by_cases hj : (j : ℤ) ∈ nonbasic
    · rw [Action.replaceArtificials, if_pos (List.contains_iff_mem.2 hj)]
      exact ih ⟨B, h.skip hj⟩
    · obtain ⟨k, hk, rfl⟩ := h.basis.exists_of_notMem (h.tableau.n.symm ▸ hjn) hj
      rw [Action.replaceArtificials, if_neg fun hc => hj (List.contains_iff_mem.1 hc)]
      refine program (basis (h.basis.basicRow_eq hs hk) ?_)
      cases hrep : s.program.replacement? n k with
      | none =>
        -- nothing structural to pivot on: row k is redundant
        refine ih ⟨B, h.keep hk hart hjrest hn hrep fun r => ?_⟩
        by_cases hc : redundant.contains k = true
        · rw [if_pos hc]
          exact ⟨.inl, fun hr => hr.elim id fun hr => hr ▸ List.contains_iff_mem.1 hc⟩
        · rw [if_neg hc, List.mem_append, List.mem_singleton]
      | some e =>
        obtain ⟨he, hlt⟩ := replacement?_eq_some hrep
        have hmem := h.replacement_nonbasic hk hart hn hq hrep
        have hen : e < s.program.n := by
          rw [h.tableau.n]
          omega
        have hcontains : (!nonbasic.contains (e : ℤ)) = false := by
          rw [List.contains_iff_mem.2 hmem, Bool.not_true]
        dsimp only
        rw [hcontains, if_neg Bool.false_ne_true]
        rw [h.tableau.tolerance] at hlt
        refine bind (pivot hk hen h.tableau.tolerance hlt) fun _ s' hs' => ?_
        exact ih ⟨_, hs' ▸ h.exchange hk hart hn hq hrep⟩

end Simplex.Action
