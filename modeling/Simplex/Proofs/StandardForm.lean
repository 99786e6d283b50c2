import Simplex.Proofs.Representation
import Simplex.Proofs.Run
import Simplex.Proofs.Standardize
/-! The standard form of a program says what the program says. The two loops that make it, over the
    constraints and then over the variables, are followed by an invariant each: how many columns
    there are so far, what is left to do, and which point of the program a point stands for. In the
    end the points of the standard form are read by subtracting the negative parts. -/

namespace Simplex

namespace Program

/-! ### Slack variables -/

/-- Number of slack variables of the first `k` constraints. -/
def slacksBefore (p : Program ℚ) (k : ℕ) : ℕ := (p.relations.take k).countP (· ≠ .equal)

/-- The first `k` constraints of `p` have become equalities in `r`. -/
structure Slacked (p : Program ℚ) (k : ℕ) (r : Program ℚ) : Prop where
  rectangular : r.Rectangular
  n : r.n = p.n + p.slacksBefore k
  m : r.m = p.m
  relations : r.relations = List.replicate k .equal ++ p.relations.drop k
  restrictions : r.restrictions = p.restrictions ++ List.replicate (p.slacksBefore k) .nonNegative
  objective : r.objective = p.objective
  tolerance : r.tolerance = p.tolerance
  represents : Represents p r id

section Slacked
variable {p r : Program ℚ} {k : ℕ}

theorem slacksBefore_succ (hk : k < p.relations.length) :
    p.slacksBefore (k + 1) = p.slacksBefore k + if p.relations[k] = .equal then 0 else 1 := by
  rw [slacksBefore, slacksBefore, List.take_succ_eq_append_getElem hk, List.countP_append]
  by_cases h : p.relations[k] = .equal <;> simp [h]

theorem slacked_zero (hp : p.Rectangular) : Slacked p 0 p :=
  ⟨hp, by simp [slacksBefore], rfl, by simp, by simp [slacksBefore], rfl, rfl, .refl p⟩

theorem Slacked.getElem?_relations (h : Slacked p k r) (hk : k < p.relations.length) :
    r.relations[k]? = some p.relations[k] := by
  rw [h.relations, List.getElem?_append_right (by simp)]
  simp [hk]

theorem Slacked.length_restrictions (h : Slacked p k r) (hr : p.restrictions.length = p.n) :
    r.restrictions.length = r.n := by
  rw [h.restrictions, h.n, List.length_append, List.length_replicate, hr]

/-- A constraint that is an equality stays as it is. -/
theorem Slacked.step_equal (h : Slacked p k r) (hk : k < p.relations.length)
    (hrel : p.relations[k] = .equal) : Slacked p (k + 1) (r.addSlack k) := by
  have hcount : p.slacksBefore (k + 1) = p.slacksBefore k := by
    rw [slacksBefore_succ hk, if_pos hrel, Nat.add_zero]
  rw [addSlack_equal ((h.getElem?_relations hk).trans (congrArg some hrel))]
  refine ⟨h.rectangular, ?_, h.m, ?_, ?_, h.objective, h.tolerance, h.represents⟩
  · rw [hcount, h.n]
  · rw [h.relations, List.drop_eq_getElem_cons hk, hrel, List.replicate_succ', List.append_assoc,
      List.singleton_append]
  · rw [hcount, h.restrictions]

/-- Any other constraint takes a slack variable. -/
theorem Slacked.step_of_ne (h : Slacked p k r) (hr : p.restrictions.length = p.n) (hm : k < p.m)
    (hk : k < p.relations.length) (hrel : p.relations[k] ≠ .equal) :
    Slacked p (k + 1) (r.addSlack k) := by
  obtain ⟨hkr, hget⟩ := List.getElem?_eq_some_iff.1 (h.getElem?_relations hk)
  have hne : r.relations[k] ≠ .equal := hget ▸ hrel
  have hcount : p.slacksBefore (k + 1) = p.slacksBefore k + 1 := by
    rw [slacksBefore_succ hk, if_neg hrel]
  have hbounded := rectangular_bounded (i := k) h.rectangular
  rw [addSlack_of_ne hkr hne]
  refine ⟨rectangular_slackened hbounded, ?_, ?_, ?_, ?_, ?_, ?_, ?_⟩
  · rw [n_slackened, n_bounded, h.n, hcount, Nat.add_assoc]
  · exact m_bounded.trans h.m
  · change (r.bounded k).relations.set k .equal = _
    rw [set_relations_bounded, h.relations, set_replicate_append_drop _ hk]
  · have hlast : ((r.bounded k).slackened k).restrictions = r.restrictions ++ [.nonNegative] := by
      rw [bounded_frame]
      rfl
    rw [hlast, h.restrictions, hcount, List.replicate_succ', List.append_assoc]
  · rw [bounded_frame]
    exact h.objective
  · rw [bounded_frame]
    exact h.tolerance
  · -- row k is turned to an upper bound first, then its slack makes it an equation
    have hr' : (r.bounded k).restrictions.length = (r.bounded k).n := by
      rw [n_bounded, ← h.length_restrictions hr, bounded_frame]
    have hm' : k < (r.bounded k).m := by
      rwa [m_bounded, h.m]
    exact (h.represents.comp (represents_bounded h.rectangular)).comp
      (represents_slackened hbounded hr' (relations_bounded hkr hne) hm')

/-- One step of the loop over the constraints. -/
theorem Slacked.step (h : Slacked p k r) (hr : p.restrictions.length = p.n) (hk : k < p.m)
    (hlen : p.relations.length = p.m) : Slacked p (k + 1) (r.addSlack k) := by
  have hk' : k < p.relations.length := hlen ▸ hk
  by_cases hrel : p.relations[k] = .equal
  · exact h.step_equal hk' hrel
  · exact h.step_of_ne hr hk hk' hrel

theorem slacked_addSlacks (hp : p.Rectangular) (hr : p.restrictions.length = p.n)
    (hlen : p.relations.length = p.m) : ∀ {k}, k ≤ p.m → Slacked p k (p.addSlacks k)
  | 0, _ => slacked_zero hp
  | k + 1, hk => by
    rw [addSlacks_succ]
    exact (slacked_addSlacks hp hr hlen (Nat.le_of_succ_le hk)).step hr hk hlen

end Slacked

/-! ### Negative parts -/

/-- Number of unrestricted variables among the first `k`. -/
def splitsBefore (p : Program ℚ) (k : ℕ) : ℕ := (p.restrictions.take k).count .unrestricted

/-- The point in which each of the first `k` variables is itself or a difference. The negative parts
    come after the variables of `p`, in their order. -/
def mergeAt (p : Program ℚ) (k : ℕ) (y : Point) : Point := fun j =>
  if j < k ∧ p.restrictions[j]? = some .unrestricted then y j - y (p.n + p.splitsBefore j) else y j

/-- The first `k` variables of `p` have become non-negative in `r`. -/
structure Split (p : Program ℚ) (k : ℕ) (r : Program ℚ) : Prop where
  rectangular : r.Rectangular
  n : r.n = p.n + p.splitsBefore k
  m : r.m = p.m
  relations : r.relations = p.relations
  restrictions : r.restrictions =
    (List.replicate k .nonNegative ++ p.restrictions.drop k) ++
      List.replicate (p.splitsBefore k) .nonNegative
  objective : r.objective = p.objective
  tolerance : r.tolerance = p.tolerance
  represents : Represents p r (p.mergeAt k)

section Split
variable {p r : Program ℚ} {k : ℕ}

theorem splitsBefore_succ (hk : k < p.restrictions.length) :
    p.splitsBefore (k + 1) =
      p.splitsBefore k + if p.restrictions[k] = .unrestricted then 1 else 0 := by
  rw [splitsBefore, splitsBefore, List.take_succ_eq_append_getElem hk, List.count_append,
    List.count_singleton]
  simp only [beq_iff_eq]

theorem mergeAt_zero : p.mergeAt 0 = id := by
  funext y j
  simp [mergeAt]

theorem split_zero (hp : p.Rectangular) : Split p 0 p :=
  ⟨hp, by simp [splitsBefore], rfl, rfl, by simp [splitsBefore], rfl, rfl, mergeAt_zero ▸ .refl p⟩

theorem Split.getElem?_restrictions (h : Split p k r) (hk : k < p.restrictions.length) :
    r.restrictions[k]? = some p.restrictions[k] := by
  rw [h.restrictions, List.append_assoc, List.getElem?_append_right (by simp)]
  simp [hk]

theorem Split.length_restrictions (h : Split p k r) (hr : p.restrictions.length = p.n)
    (hk : k ≤ p.n) :
    r.restrictions.length = r.n := by
  rw [h.restrictions, h.n]
  simp only [List.length_append, List.length_replicate, List.length_drop, hr]
  omega

/-- A variable that is non-negative stands for itself. -/
theorem mergeAt_succ_of_ne (hk : k < p.restrictions.length)
    (hne : p.restrictions[k] ≠ .unrestricted) :
    p.mergeAt (k + 1) = p.mergeAt k := by
  funext y j
  have hiff : (j < k + 1 ∧ p.restrictions[j]? = some .unrestricted) ↔
      (j < k ∧ p.restrictions[j]? = some .unrestricted) := by
    refine ⟨fun ⟨hj, hfree⟩ => ⟨?_, hfree⟩, fun ⟨hj, hfree⟩ => ⟨by omega, hfree⟩⟩
    rcases Nat.lt_succ_iff_lt_or_eq.1 hj with hj | rfl
    · exact hj
    · rw [List.getElem?_eq_getElem hk, Option.some.injEq] at hfree
      exact absurd hfree hne
  simp only [mergeAt, hiff]

/-- The next difference is taken last. -/
theorem mergeAt_merge (hk : k < p.n) (hfree : p.restrictions[k]? = some .unrestricted) (y : Point)
    (j : ℕ) : p.mergeAt k (merge k (p.n + p.splitsBefore k) y) j = p.mergeAt (k + 1) y j := by
  rcases lt_trichotomy j k with hlt | rfl | hgt
  · have hpart : p.n + p.splitsBefore j ≠ k := by omega
    simp only [mergeAt, merge_of_ne hlt.ne, merge_of_ne hpart, hlt, hlt.trans (Nat.lt_succ_self k)]
  · simp [mergeAt, hfree]
  · have hafter : ¬ j < k + 1 := by omega
    simp only [mergeAt, merge_of_ne hgt.ne', hafter, hgt.not_gt, false_and, if_false]

/-- A variable that is non-negative stays as it is. -/
theorem Split.step_nonNegative (h : Split p k r) (hk : k < p.restrictions.length)
    (hres : p.restrictions[k] = .nonNegative) : Split p (k + 1) (r.splitVariable k) := by
  have hne : p.restrictions[k] ≠ .unrestricted := by
    intro hfree
    rw [hres] at hfree
    cases hfree
  have hcount : p.splitsBefore (k + 1) = p.splitsBefore k := by
    rw [splitsBefore_succ hk, if_neg hne, Nat.add_zero]
  rw [splitVariable_nonNegative ((h.getElem?_restrictions hk).trans (congrArg some hres))]
  refine ⟨h.rectangular, ?_, h.m, h.relations, ?_, h.objective, h.tolerance, ?_⟩
  · rw [hcount, h.n]
  · rw [hcount, h.restrictions, List.drop_eq_getElem_cons hk, hres, List.replicate_succ',
      List.append_assoc _ [_] _, List.singleton_append]
  · rw [mergeAt_succ_of_ne hk hne]
    exact h.represents

/-- Any other variable is split into a difference. -/
theorem Split.step_unrestricted (h : Split p k r) (hr : p.restrictions.length = p.n) (hk : k < p.n)
    (hfree : p.restrictions[k]? = some .unrestricted) : Split p (k + 1) (r.splitVariable k) := by
  obtain ⟨hk', hget⟩ := List.getElem?_eq_some_iff.1 hfree
  have hunr : r.restrictions[k]? = some .unrestricted :=
    (h.getElem?_restrictions hk').trans (congrArg some hget)
  have hcount : p.splitsBefore (k + 1) = p.splitsBefore k + 1 := by
    rw [splitsBefore_succ hk', if_pos hget]
  refine ⟨rectangular_splitVariable hunr h.rectangular, ?_, ?_, ?_, ?_, ?_, ?_, ?_⟩
  · rw [n_splitVariable hunr, h.n, hcount, Nat.add_assoc]
  · rw [m_splitVariable hunr, h.m]
  · rw [splitVariable_unrestricted hunr]
    exact h.relations
  · -- restriction k becomes non-negative, and so is the new one at the end
    have hset : (r.splitVariable k).restrictions =
        r.restrictions.set k .nonNegative ++ [.nonNegative] := by
      rw [splitVariable_unrestricted hunr]
      rfl
    have hin : k < (List.replicate k Restriction.nonNegative ++ p.restrictions.drop k).length := by
      simp only [List.length_append, List.length_replicate, List.length_drop]
      omega
    rw [hset, h.restrictions, List.set_append_left _ _ hin, set_replicate_append_drop _ hk', hcount,
      List.replicate_succ' (n := p.splitsBefore k), ← List.append_assoc]
  · rw [splitVariable_unrestricted hunr]
    exact h.objective
  · rw [splitVariable_unrestricted hunr]
    exact h.tolerance
  · have hrn := h.length_restrictions hr hk.le
    refine (h.represents.comp (represents_splitVariable hunr hrn h.rectangular)).congr
      fun y j _ => ?_
    rw [Function.comp_apply, h.n]
    exact mergeAt_merge hk hfree y j

/-- One step of the loop over the variables. -/
theorem Split.step (h : Split p k r) (hr : p.restrictions.length = p.n) (hk : k < p.n) :
    Split p (k + 1) (r.splitVariable k) := by
  have hk' : k < p.restrictions.length := hr ▸ hk
  cases hres : p.restrictions[k] with
  | nonNegative => exact h.step_nonNegative hk' hres
  | unrestricted =>
    exact h.step_unrestricted hr hk ((List.getElem?_eq_getElem hk').trans (congrArg some hres))

theorem split_splitVariables (hp : p.Rectangular) (hr : p.restrictions.length = p.n) :
    ∀ {k}, k ≤ p.n → Split p k (p.splitVariables k)
  | 0, _ => split_zero hp
  | k + 1, hk => by
    rw [splitVariables_succ]
    exact (split_splitVariables hp hr (Nat.le_of_succ_le hk)).step hr hk

end Split

/-! ### The objective -/

section Maximize
variable {p : Program ℚ}

@[simp] theorem value_toMaximize (i : ℕ) : p.toMaximize.value i = p.value i := by
  rw [toMaximize_frame]
  rfl

@[simp] theorem entry_toMaximize (i j : ℕ) : p.toMaximize.entry i j = p.entry i j := by
  rw [toMaximize_frame]
  rfl

theorem cost_toMaximize {j : ℕ} (hj : j < p.n) :
    p.toMaximize.cost j = p.objective.asMaximum (p.cost j) := by
  cases h : p.objective
  · simp only [toMaximize, h, Objective.asMaximum, cost]
    exact getD_map _ hj 0 0
  · simp only [toMaximize, h, Objective.asMaximum]

/-- A minimum is the maximum of the negated objective. -/
theorem objectiveAt_toMaximize (x : Point) :
    p.toMaximize.objectiveAt x = p.objective.asMaximum (p.objectiveAt x) := by
  have hcost : ∑ j ∈ Finset.range p.n, p.toMaximize.cost j * x j =
      ∑ j ∈ Finset.range p.n, p.objective.asMaximum (p.cost j) * x j :=
    Finset.sum_congr rfl fun j hj => by rw [cost_toMaximize (Finset.mem_range.1 hj)]
  rw [objectiveAt, objectiveAt, n_toMaximize, hcost]
  cases h : p.objective
  · simp only [toMaximize, h, Objective.asMaximum, neg_mul, Finset.sum_neg_distrib, neg_add]
  · simp only [toMaximize, h, Objective.asMaximum]

theorem feasible_toMaximize {x : Point} : p.toMaximize.Feasible x ↔ p.Feasible x := by
  have hrow : ∀ i, p.toMaximize.rowAt i x = p.rowAt i x := by
    intro i
    simp [rowAt]
  constructor
  · rintro ⟨hrelations, hrestrictions⟩
    refine ⟨?_, ?_⟩
    · intro i hi c hc
      simpa [hrow] using hrelations i (by simpa using hi) c (by simpa using hc)
    · intro j hj hc
      exact hrestrictions j (by simpa using hj) (by simpa using hc)
  · rintro ⟨hrelations, hrestrictions⟩
    refine ⟨?_, ?_⟩
    · intro i hi c hc
      simpa [hrow] using hrelations i (by simpa using hi) c (by simpa using hc)
    · intro j hj hc
      exact hrestrictions j (by simpa using hj) (by simpa using hc)

end Maximize

/-! ### The standard form -/

/-- The point of the program that a point of its standard form stands for. -/
def recoverPoint (p : Program ℚ) (y : Point) : Point := fun j =>
  if p.restrictions[j]? = some .unrestricted then y j - y (p.negativePart j) else y j

theorem pointAt_recover {p : Program ℚ} (ys : List ℚ) {j : ℕ} (hj : j < p.restrictions.length) :
    pointAt (p.recover ys) j = p.recoverPoint (pointAt ys) j := by
  have hget : p.restrictions[j]? = some p.restrictions[j] := List.getElem?_eq_getElem hj
  simp only [pointAt, recover, recoverPoint, hget, Option.some.injEq, List.getD_eq_getElem?_getD,
    List.getElem?_map, List.getElem?_zipIdx, Option.map_some, Option.getD_some, Nat.zero_add]
  cases p.restrictions[j] <;> simp

/-- `q` is a standard form of `p`. -/
structure StandardFormOf (p q : Program ℚ) : Prop where
  wellFormed : q.WellFormed
  isStandard : q.IsStandard
  standard : q.standard = true
  tolerance : q.tolerance = p.tolerance
  sound : ∀ y, q.Feasible y → p.Feasible (p.recoverPoint y)
  complete : ∀ x, p.Feasible x → ∃ y, q.Feasible y ∧ ∀ j < p.n, p.recoverPoint y j = x j
  objectiveAt : ∀ y, q.objectiveAt y = p.objective.asMaximum (p.objectiveAt (p.recoverPoint y))

section StandardForm
variable {p q r : Program ℚ}

/-- A program that is in standard form stands for itself. -/
theorem standardFormOf_refl (hp : p.WellFormed) (hstandard : p.standard = true) :
    StandardFormOf p p := by
  have hs := hp.truthful hstandard
  have hrecover : ∀ y, p.recoverPoint y = y := by
    intro y
    funext j
    refine if_neg fun hfree => ?_
    obtain ⟨hj, hfree⟩ := List.getElem?_eq_some_iff.1 hfree
    rw [hs.restrictions _ (List.getElem_mem hj)] at hfree
    cases hfree
  refine ⟨hp, hs, hstandard, rfl, ?_, fun x hx => ⟨x, hx, ?_⟩, ?_⟩
  · intro y hy
    rwa [hrecover]
  · intro j _
    rw [hrecover]
  · intro y
    rw [hrecover, hs.objective]
    rfl

/-- The differences that the second loop takes are those that read a point of the standard form. -/
theorem mergeAt_eq_recoverPoint (hp : p.WellFormed) (hq : Slacked p.toMaximize p.m q)
    (y : Point) {j : ℕ} (hj : j < p.n) : q.mergeAt q.n y j = p.recoverPoint y j := by
  have hjr : j < p.restrictions.length := hp.restrictions ▸ hj
  have hrestrictions := restrictions_toMaximize (p := p) ▸ hq.restrictions
  have hjq : j < q.n := by
    rw [hq.n, n_toMaximize]
    omega
  have hget : q.restrictions[j]? = p.restrictions[j]? := by
    rw [hrestrictions, List.getElem?_append_left hjr]
  have hpart : q.n + q.splitsBefore j = p.negativePart j := by
    rw [hq.n, n_toMaximize, negativePart, slacksBefore, slackCount, splitsBefore,
      relations_toMaximize, hrestrictions, List.take_append_of_le_length hjr.le]
  simp only [mergeAt, recoverPoint, hjq, true_and, hget, hpart]

/-- What the two loops make of a program that maximises. -/
theorem standardFormOf_of_loops (hp : p.WellFormed) (hq : Slacked p.toMaximize p.m q)
    (hr : Split q q.n r) : StandardFormOf p { r with standard := true, simplex := false } := by
  have hqr : q.restrictions.length = q.n := hq.length_restrictions (by simp [hp.restrictions])
  have hrelations : q.relations = List.replicate p.m .equal := by
    rw [hq.relations, relations_toMaximize, ← hp.relations, List.drop_length, List.append_nil]
  have hm : q.m = p.m := hq.m.trans m_toMaximize
  have hstandard : IsStandard { r with standard := true, simplex := false } := by
    refine ⟨?_, ?_, ?_⟩
    · change r.objective = _
      rw [hr.objective, hq.objective, objective_toMaximize]
    · intro c hc
      change c ∈ r.relations at hc
      rw [hr.relations, hrelations] at hc
      exact List.eq_of_mem_replicate hc
    · intro c hc
      change c ∈ r.restrictions at hc
      rw [hr.restrictions, ← hqr, List.drop_length, List.append_nil] at hc
      rcases List.mem_append.1 hc with hc | hc
      · exact List.eq_of_mem_replicate hc
      · exact List.eq_of_mem_replicate hc
  -- the two changes of coordinates, one after the other, are `recoverPoint`
  have hrep := (hq.represents.comp hr.represents).congr
    (fun y j hj => mergeAt_eq_recoverPoint hp hq y (by rwa [n_toMaximize] at hj))
  refine ⟨⟨⟨hr.rectangular.rows, hr.rectangular.row⟩, ?_, ?_, fun _ => hstandard⟩, hstandard,
    rfl, ?_, ?_, ?_, ?_⟩
  · change r.relations.length = r.m
    rw [hr.relations, hrelations, hr.m, hm, List.length_replicate]
  · exact hr.length_restrictions hqr le_rfl
  · change r.tolerance = _
    rw [hr.tolerance, hq.tolerance, tolerance_toMaximize]
  · intro y hy
    exact feasible_toMaximize.1 (hrep.sound y ⟨hy.relations, hy.restrictions⟩)
  · intro x hx
    obtain ⟨y, hy, hyx⟩ := hrep.complete x (feasible_toMaximize.2 hx)
    exact ⟨y, ⟨hy.relations, hy.restrictions⟩, fun j hj => hyx j (by rwa [n_toMaximize])⟩
  · intro y
    rw [← objectiveAt_toMaximize]
    exact (hrep.objectiveAt y).symm

theorem slacked_equalities (hp : p.WellFormed) : Slacked p.toMaximize p.m p.equalities :=
  slacked_addSlacks (rectangular_toMaximize hp.toRectangular) (by simp [hp.restrictions])
    (by simp [hp.relations]) (by simp)

theorem length_restrictions_equalities (hp : p.WellFormed) :
    p.equalities.restrictions.length = p.equalities.n :=
  (slacked_equalities hp).length_restrictions (by simp [hp.restrictions])

theorem standardFormOf_standardForm (hp : p.WellFormed) : StandardFormOf p p.standardForm :=
  standardFormOf_of_loops hp (slacked_equalities hp)
    (split_splitVariables (slacked_equalities hp).rectangular
      (length_restrictions_equalities hp) le_rfl)

/-- The points of the standard form are the feasible ones of the program. -/
theorem StandardFormOf.feasible_recoverPoint (h : StandardFormOf p q) {y : Point} (hy : q.Solves y)
    (hn : q.NonNegative y) : p.Feasible (p.recoverPoint y) :=
  h.sound y ((h.isStandard.feasible_iff h.wellFormed y).2 ⟨hy, hn⟩)

/-- A point keeps to the program if and only if it has slacks and parts that
    solve a standard form. -/
theorem StandardFormOf.feasible_iff_exists (h : StandardFormOf p q) (x : Point) :
    p.Feasible x ↔ ∃ y, q.NonNegative y ∧ q.Solves y ∧ ∀ j < p.n, x j = p.recoverPoint y j := by
  constructor
  · intro hx
    obtain ⟨y, hy, hyx⟩ := h.complete x hx
    obtain ⟨hsolves, hn⟩ := (h.isStandard.feasible_iff h.wellFormed y).1 hy
    exact ⟨y, hn, hsolves, fun j hj => (hyx j hj).symm⟩
  · rintro ⟨y, hn, hsolves, hyx⟩
    exact (h.feasible_recoverPoint hsolves hn).congr fun j hj => (hyx j hj).symm

/-- Whether a standard form is prepared for the search makes no difference to what it says. -/
theorem StandardFormOf.withSimplex (h : StandardFormOf p q) (b : Bool) :
    StandardFormOf p { q with simplex := b } := by
  refine ⟨⟨⟨h.wellFormed.rows, h.wellFormed.row⟩, h.wellFormed.relations, h.wellFormed.restrictions,
    ?_⟩, ?_, h.standard, h.tolerance, ?_, ?_, h.objectiveAt⟩
  · intro _
    exact ⟨h.isStandard.objective, h.isStandard.relations, h.isStandard.restrictions⟩
  · exact ⟨h.isStandard.objective, h.isStandard.relations, h.isStandard.restrictions⟩
  · intro y hy
    exact h.sound y ⟨hy.relations, hy.restrictions⟩
  · intro x hx
    obtain ⟨y, hy, hyx⟩ := h.complete x hx
    exact ⟨y, ⟨hy.relations, hy.restrictions⟩, hyx⟩

end StandardForm

end Program

namespace Action
open Program

/-- Standardizing a well-formed program makes it its standard form. -/
theorem standardize_eq {s : Session ℚ} (hp : s.program.WellFormed)
    (hs : s.program.standard = false) :
    Action.standardize s = .ok () { s with program := s.program.standardForm } :=
  standardize_eq_of_shaped hp.shaped hs

/-- A well-formed program is brought into standard form without fault. -/
theorem Runs.standardize {t : ℚ} {s : Session ℚ} (hp : s.program.WellFormed) :
    Runs t Action.standardize s fun _ s' => StandardFormOf s.program s'.program := by
  cases hs : s.program.standard with
  | true =>
    refine program ?_
    rw [if_pos hs]
    exact pure (standardFormOf_refl hp hs)
  | false =>
    rw [Runs, standardize_eq hp hs]
    exact ⟨.refl, standardFormOf_standardForm hp⟩

end Action

end Simplex
