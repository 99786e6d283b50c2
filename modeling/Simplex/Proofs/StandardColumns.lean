import Simplex.Proofs.StandardForm
/-! What the standard form of a program looks like. Every old column stays in its place, with the
    rows of `≥` negated; the slack variables follow in the order of the constraints, and the
    negative parts in the order of the variables. With the columns known, the points of the
    standard form are those of the program with their slacks and their parts, and a feasible
    point has them in both directions. -/

namespace Simplex

namespace Program

/-! ### The columns of the slack variables -/

/-- A number of constraint `i` as it stands once `≥` is turned into `≤`. -/
def asUpper (p : Program ℚ) (i : ℕ) (a : ℚ) : ℚ :=
  if p.relations[i]? = some .greaterEqual then -a else a

section Slack
variable {p r : Program ℚ} {i k l j : ℕ}

theorem entry_bounded (hp : p.Rectangular) (hk : k < p.m) (hj : j < p.n) :
    (p.bounded i).entry k j = if k = i then p.asUpper i (p.entry k j) else p.entry k j := by
  have hlen : j < (p.row k).length := (row_length hp hk).symm ▸ hj
  have hrow : (p.turned i).row k = if k = i then (p.row k).map (- ·) else p.row k :=
    getD_modify (hp.rows ▸ hk) _ []
  rw [bounded, asUpper]
  split_ifs with hge hki
  · rw [entry, hrow, if_pos hki, getD_map _ hlen 0]
    rfl
  · rw [entry, hrow, if_neg hki]
    rfl
  all_goals rfl

theorem value_bounded (hk : k < p.m) :
    (p.bounded i).value k = if k = i then p.asUpper i (p.value k) else p.value k := by
  rw [bounded, asUpper]
  split_ifs with hge hki
  · rw [value_turned hk, if_pos hki]
  · rw [value_turned hk, if_neg hki]
  all_goals rfl

theorem entry_slackened (hp : p.Rectangular) (hk : k < p.m) (hj : j < p.n) :
    (p.slackened i).entry k j = p.entry k j :=
  entry_appendVariable (p := { p with relations := p.relations.set i .equal }) ⟨hp.rows, hp.row⟩
    (length_unit p.m i) hk hj

theorem entry_slackened_n (hp : p.Rectangular) (hk : k < p.m) :
    (p.slackened i).entry k p.n = if k = i then 1 else 0 :=
  (entry_appendVariable_n (p := { p with relations := p.relations.set i .equal }) ⟨hp.rows, hp.row⟩
    (length_unit p.m i) hk).trans (getD_unit i hk)

theorem cost_slackened (hj : j < p.n) : (p.slackened i).cost j = p.cost j :=
  cost_appendVariable (p := { p with relations := p.relations.set i .equal }) hj

theorem cost_slackened_n : (p.slackened i).cost p.n = 0 :=
  cost_appendVariable_n (p := { p with relations := p.relations.set i .equal })

/-- The columns of `r`, in which the first `k` constraints of `p` have become equalities. -/
structure SlackColumns (p : Program ℚ) (k : ℕ) (r : Program ℚ) : Prop where
  entry : ∀ i < p.m, ∀ j < p.n, r.entry i j = if i < k then p.asUpper i (p.entry i j)
    else p.entry i j
  slack : ∀ l < k, p.relations[l]? ≠ some .equal → ∀ i < p.m,
    r.entry i (p.n + p.slacksBefore l) = if i = l then 1 else 0
  cost : ∀ j < p.n, r.cost j = p.cost j
  cost_slack : ∀ l < k, p.relations[l]? ≠ some .equal → r.cost (p.n + p.slacksBefore l) = 0
  value : ∀ i < p.m, r.value i = if i < k then p.asUpper i (p.value i) else p.value i

/-- The slack variable of a later constraint comes later. -/
theorem slacksBefore_lt (hlk : l < k) (hk : k ≤ p.relations.length)
    (hl : p.relations[l]? ≠ some .equal) :
    p.slacksBefore l < p.slacksBefore k := by
  have hl' : l < p.relations.length := by omega
  have hne : p.relations[l] ≠ .equal := fun heq => hl (by rw [List.getElem?_eq_getElem hl', heq])
  have hsucc : p.slacksBefore (l + 1) = p.slacksBefore l + 1 := by
    rw [slacksBefore_succ hl', if_neg hne]
  have hle : p.slacksBefore (l + 1) ≤ p.slacksBefore k :=
    ((List.take_prefix_take_left (Nat.succ_le_of_lt hlk)).sublist).countP_le
  omega

/-- A round that changes constraint `k` alone finishes one more of them. -/
theorem ite_lt_succ {a b c : ℚ} (hk : i = k → a = b) (h : i ≠ k → a = if i < k then b else c) :
    a = if i < k + 1 then b else c := by
  rcases lt_trichotomy i k with hlt | heq | hgt
  · rw [if_pos (by omega), h hlt.ne, if_pos hlt]
  · rw [if_pos (by omega), hk heq]
  · rw [if_neg (by omega), h hgt.ne', if_neg (by omega)]

theorem slackColumns_zero : SlackColumns p 0 p :=
  ⟨fun _ _ _ _ => rfl, fun _ hl => absurd hl (Nat.not_lt_zero _), fun _ _ => rfl,
    fun _ hl => absurd hl (Nat.not_lt_zero _), fun _ _ => rfl⟩

/-- A constraint that is an equality stays as it is. -/
theorem SlackColumns.step_equal (h : SlackColumns p k r) (hr : Slacked p k r)
    (hk : k < p.relations.length) (hrel : p.relations[k] = .equal) :
    SlackColumns p (k + 1) (r.addSlack k) := by
  have hequal : p.relations[k]? = some .equal := by rw [List.getElem?_eq_getElem hk, hrel]
  have hupper : ∀ a, p.asUpper k a = a := fun a => by rw [asUpper, hequal, if_neg (by decide)]
  have before : ∀ l < k + 1, p.relations[l]? ≠ some .equal → l < k := by
    intro l hl hne
    rcases Nat.lt_succ_iff_lt_or_eq.1 hl with hl | rfl
    · exact hl
    · exact absurd hequal hne
  rw [addSlack_equal ((hr.getElem?_relations hk).trans (congrArg some hrel))]
  refine ⟨?_, fun l hl hne => h.slack l (before l hl hne) hne, h.cost,
    fun l hl hne => h.cost_slack l (before l hl hne) hne, ?_⟩
  · intro i hi j hj
    refine ite_lt_succ ?_ fun _ => h.entry i hi j hj
    rintro rfl
    rw [h.entry i hi j hj, if_neg (lt_irrefl i), hupper]
  · intro i hi
    refine ite_lt_succ ?_ fun _ => h.value i hi
    rintro rfl
    rw [h.value i hi, if_neg (lt_irrefl i), hupper]

/-- Any other constraint is turned if it has to be, and takes the next column. -/
theorem SlackColumns.step_of_ne (h : SlackColumns p k r) (hr : Slacked p k r)
    (hk : k < p.relations.length) (hrel : p.relations[k] ≠ .equal) :
    SlackColumns p (k + 1) (r.addSlack k) := by
  obtain ⟨hrk, hget⟩ := List.getElem?_eq_some_iff.1 (hr.getElem?_relations hk)
  have hrect := rectangular_bounded (i := k) hr.rectangular
  have hupper : ∀ a, r.asUpper k a = p.asUpper k a := fun a => by
    rw [asUpper, asUpper, hr.getElem?_relations hk, List.getElem?_eq_getElem hk]
  have hm : ∀ {i}, i < p.m → i < (r.bounded k).m := fun hi => by rwa [m_bounded, hr.m]
  have hn : (r.bounded k).n = p.n + p.slacksBefore k := by rw [n_bounded, hr.n]
  -- the slack column stands last: the columns before it only see the sign of row k turned
  have entry_old : ∀ i < p.m, ∀ j < p.n + p.slacksBefore k,
      ((r.bounded k).slackened k).entry i j = if i = k then p.asUpper k (r.entry i j)
      else r.entry i j := by
    intro i hi j hj
    rw [entry_slackened hrect (hm hi) (hn.symm ▸ hj),
      entry_bounded hr.rectangular (hr.m.symm ▸ hi) (hr.n.symm ▸ hj), hupper]
  have cost_old : ∀ j < p.n + p.slacksBefore k, ((r.bounded k).slackened k).cost j = r.cost j := by
    intro j hj
    rw [cost_slackened (hn.symm ▸ hj), bounded_frame]
    rfl
  have slack_old : ∀ l < k, p.relations[l]? ≠ some .equal →
      p.n + p.slacksBefore l < p.n + p.slacksBefore k :=
    fun l hl hne => Nat.add_lt_add_left (slacksBefore_lt hl hk.le hne) p.n
  rw [addSlack_of_ne hrk (hget ▸ hrel)]
  refine ⟨?_, ?_, ?_, ?_, ?_⟩
  · intro i hi j hj
    rw [entry_old i hi j (by omega)]
    refine ite_lt_succ ?_ fun hik => ?_
    · rintro rfl
      rw [if_pos rfl, h.entry i hi j hj, if_neg (lt_irrefl i)]
    · rw [if_neg hik, h.entry i hi j hj]
  · intro l hl hlne i hi
    rcases Nat.lt_succ_iff_lt_or_eq.1 hl with hl | rfl
    · -- an earlier slack column has a zero in row k, which the sign leaves alone
      rw [entry_old i hi _ (slack_old l hl hlne), h.slack l hl hlne i hi]
      split_ifs with hik hil
      · omega
      · rw [asUpper, neg_zero, ite_self]
      all_goals rfl
    · rw [← hn, entry_slackened_n hrect (hm hi)]
  · intro j hj
    rw [cost_old j (by omega), h.cost j hj]
  · intro l hl hlne
    rcases Nat.lt_succ_iff_lt_or_eq.1 hl with hl | rfl
    · rw [cost_old _ (slack_old l hl hlne), h.cost_slack l hl hlne]
    · rw [← hn, cost_slackened_n]
  · intro i hi
    change (r.bounded k).value i = _
    rw [value_bounded (hr.m.symm ▸ hi), hupper]
    refine ite_lt_succ ?_ fun hik => ?_
    · rintro rfl
      rw [if_pos rfl, h.value i hi, if_neg (lt_irrefl i)]
    · rw [if_neg hik, h.value i hi]

/-- One round of the loop over the constraints. -/
theorem SlackColumns.step (h : SlackColumns p k r) (hr : Slacked p k r) (hk : k < p.m)
    (hlen : p.relations.length = p.m) : SlackColumns p (k + 1) (r.addSlack k) := by
  have hk' : k < p.relations.length := hlen ▸ hk
  by_cases hrel : p.relations[k] = .equal
  · exact h.step_equal hr hk' hrel
  · exact h.step_of_ne hr hk' hrel

theorem slackColumns_addSlacks (hp : p.Rectangular) (hr : p.restrictions.length = p.n)
    (hlen : p.relations.length = p.m) : ∀ {k}, k ≤ p.m → SlackColumns p k (p.addSlacks k)
  | 0, _ => slackColumns_zero
  | k + 1, hk => by
    rw [addSlacks_succ]
    exact (slackColumns_addSlacks hp hr hlen (Nat.le_of_succ_le hk)).step
      (slacked_addSlacks hp hr hlen (Nat.le_of_succ_le hk)) hk hlen

end Slack

/-! ### The columns of the negative parts -/

section Split
variable {p r : Program ℚ} {j k : ℕ}

/-- The columns of `r`, in which the first `k` variables of `p` have become non-negative. -/
structure SplitColumns (p : Program ℚ) (k : ℕ) (r : Program ℚ) : Prop where
  entry : ∀ i < p.m, ∀ j < p.n, r.entry i j = p.entry i j
  negative : ∀ j < k, p.restrictions[j]? = some .unrestricted → ∀ i < p.m,
    r.entry i (p.n + p.splitsBefore j) = -p.entry i j
  cost : ∀ j < p.n, r.cost j = p.cost j
  cost_negative : ∀ j < k, p.restrictions[j]? = some .unrestricted →
    r.cost (p.n + p.splitsBefore j) = -p.cost j
  value : ∀ i < p.m, r.value i = p.value i

/-- The negative part of a later variable comes later. -/
theorem splitsBefore_lt (hjk : j < k) (hj : p.restrictions[j]? = some .unrestricted) :
    p.splitsBefore j < p.splitsBefore k := by
  obtain ⟨hj', hfree⟩ := List.getElem?_eq_some_iff.1 hj
  have hsucc : p.splitsBefore (j + 1) = p.splitsBefore j + 1 := by
    rw [splitsBefore_succ hj', if_pos hfree]
  have hle : p.splitsBefore (j + 1) ≤ p.splitsBefore k :=
    ((List.take_prefix_take_left (Nat.succ_le_of_lt hjk)).sublist).count_le _
  omega

theorem splitColumns_zero : SplitColumns p 0 p :=
  ⟨fun _ _ _ _ => rfl, fun _ hj => absurd hj (Nat.not_lt_zero _), fun _ _ => rfl,
    fun _ hj => absurd hj (Nat.not_lt_zero _), fun _ _ => rfl⟩

/-- A variable that is non-negative stays as it is. -/
theorem SplitColumns.step_nonNegative (h : SplitColumns p k r) (hs : Split p k r)
    (hk : k < p.restrictions.length) (hres : p.restrictions[k] = .nonNegative) :
    SplitColumns p (k + 1) (r.splitVariable k) := by
  have before : ∀ j < k + 1, p.restrictions[j]? = some .unrestricted → j < k := by
    intro j hj hfree
    rcases Nat.lt_succ_iff_lt_or_eq.1 hj with hj | rfl
    · exact hj
    · rw [List.getElem?_eq_getElem hk, hres] at hfree
      cases hfree
  rw [splitVariable_nonNegative ((hs.getElem?_restrictions hk).trans (congrArg some hres))]
  exact ⟨h.entry, fun j hj hfree => h.negative j (before j hj hfree) hfree, h.cost,
    fun j hj hfree => h.cost_negative j (before j hj hfree) hfree, h.value⟩

/-- A free variable takes the next column for its negative part. -/
theorem SplitColumns.step_unrestricted (h : SplitColumns p k r) (hs : Split p k r) (hn : k < p.n)
    (hk : k < p.restrictions.length) (hres : p.restrictions[k] = .unrestricted) :
    SplitColumns p (k + 1) (r.splitVariable k) := by
  let q : Program ℚ := r.restrict k
  have hq : q.Rectangular := ⟨hs.rectangular.rows, hs.rectangular.row⟩
  have hlen : ((r.column k).map (- ·)).length = q.m := length_column hs.rectangular
  have hm : ∀ {i}, i < p.m → i < q.m := fun hi => by
    change _ < r.m
    rwa [hs.m]
  have hnew : q.n = p.n + p.splitsBefore k := hs.n
  have old : ∀ {j}, j < p.n + p.splitsBefore k → j < q.n := fun hj => hnew.symm ▸ hj
  have hcolumn : ∀ i < p.m, ((r.column k).map (- ·)).getD i 0 = -r.entry i k := by
    intro i hi
    have hi' : i < r.rows.length := hs.rectangular.rows ▸ hm hi
    rw [getD_map _ (by simpa [column] using hi') 0, column, getD_map _ hi' []]
    rfl
  rw [splitVariable_unrestricted ((hs.getElem?_restrictions hk).trans (congrArg some hres))]
  -- the negative part stands last, so only the position k is new in each statement
  refine ⟨?_, ?_, ?_, ?_, h.value⟩
  · intro i hi j hj
    rw [entry_appendVariable hq hlen (hm hi) (old (by omega))]
    exact h.entry i hi j hj
  · intro j hj hfree i hi
    rcases Nat.lt_succ_iff_lt_or_eq.1 hj with hj | rfl
    · have hlt := splitsBefore_lt hj hfree
      rw [entry_appendVariable hq hlen (hm hi) (old (by omega))]
      exact h.negative j hj hfree i hi
    · rw [← hnew, entry_appendVariable_n hq hlen (hm hi), hcolumn i hi, h.entry i hi j hn]
  · intro j hj
    rw [cost_appendVariable (old (by omega))]
    exact h.cost j hj
  · intro j hj hfree
    rcases Nat.lt_succ_iff_lt_or_eq.1 hj with hj | rfl
    · have hlt := splitsBefore_lt hj hfree
      rw [cost_appendVariable (old (by omega))]
      exact h.cost_negative j hj hfree
    · rw [← hnew, cost_appendVariable_n, h.cost j hn]

/-- One round of the loop over the variables. -/
theorem SplitColumns.step (h : SplitColumns p k r) (hs : Split p k r)
    (hr : p.restrictions.length = p.n) (hk : k < p.n) :
    SplitColumns p (k + 1) (r.splitVariable k) := by
  have hk' : k < p.restrictions.length := hr ▸ hk
  cases hres : p.restrictions[k] with
  | nonNegative => exact h.step_nonNegative hs hk' hres
  | unrestricted => exact h.step_unrestricted hs hk hk' hres

theorem splitColumns_splitVariables (hp : p.Rectangular) (hr : p.restrictions.length = p.n) :
    ∀ {k}, k ≤ p.n → SplitColumns p k (p.splitVariables k)
  | 0, _ => splitColumns_zero
  | k + 1, hk => by
    rw [splitVariables_succ]
    exact (splitColumns_splitVariables hp hr (Nat.le_of_succ_le hk)).step
      (split_splitVariables hp hr (Nat.le_of_succ_le hk)) hr hk

end Split

/-! ### The columns of the standard form -/

/-- The columns of the standard form `q` of `p`: the variables of `p`, the slack
    variables, the negative parts. -/
structure StandardColumns (p q : Program ℚ) : Prop where
  n : q.n = p.n + p.slackCount + p.restrictions.count .unrestricted
  m : q.m = p.m
  entry : ∀ i < p.m, ∀ j < p.n, q.entry i j = p.asUpper i (p.entry i j)
  entry_slack : ∀ l < p.m, p.relations[l]? ≠ some .equal → ∀ i < p.m,
    q.entry i (p.n + p.slacksBefore l) = if i = l then 1 else 0
  entry_negative : ∀ j < p.n, p.restrictions[j]? = some .unrestricted → ∀ i < p.m,
    q.entry i (p.negativePart j) = -q.entry i j
  cost : ∀ j < p.n, q.cost j = p.objective.asMaximum (p.cost j)
  cost_slack : ∀ l < p.m, p.relations[l]? ≠ some .equal → q.cost (p.n + p.slacksBefore l) = 0
  cost_negative : ∀ j < p.n, p.restrictions[j]? = some .unrestricted →
    q.cost (p.negativePart j) = -q.cost j
  value : ∀ i < p.m, q.value i = p.asUpper i (p.value i)

section StandardForm
variable {p : Program ℚ}

theorem slackColumns_equalities (hp : p.WellFormed) : SlackColumns p.toMaximize p.m p.equalities :=
  slackColumns_addSlacks (rectangular_toMaximize hp.toRectangular) (by simp [hp.restrictions])
    (by simp [hp.relations]) (by simp)

theorem splitColumns_standardForm (hp : p.WellFormed) :
    SplitColumns p.equalities p.equalities.n (p.equalities.splitVariables p.equalities.n) :=
  splitColumns_splitVariables (slacked_equalities hp).rectangular
    (length_restrictions_equalities hp) le_rfl

theorem n_equalities (hp : p.WellFormed) : p.equalities.n = p.n + p.slackCount := by
  rw [(slacked_equalities hp).n, n_toMaximize, slacksBefore, relations_toMaximize, slackCount]

theorem restrictions_equalities (hp : p.WellFormed) : p.equalities.restrictions =
    p.restrictions ++ List.replicate p.slackCount .nonNegative := by
  rw [(slacked_equalities hp).restrictions, restrictions_toMaximize, slacksBefore,
    relations_toMaximize, slackCount]

theorem asUpper_toMaximize (i : ℕ) (a : ℚ) : p.toMaximize.asUpper i a = p.asUpper i a := by
  rw [asUpper, asUpper, relations_toMaximize]

theorem slacksBefore_toMaximize (l : ℕ) : p.toMaximize.slacksBefore l = p.slacksBefore l := by
  rw [slacksBefore, slacksBefore, relations_toMaximize]

/-- The negative parts of the equalities are those of the program. -/
theorem negativePart_eq (hp : p.WellFormed) {j : ℕ} (hj : j < p.n) :
    p.equalities.n + p.equalities.splitsBefore j = p.negativePart j := by
  have hj' : j < p.restrictions.length := hp.restrictions ▸ hj
  rw [n_equalities hp, splitsBefore, restrictions_equalities hp,
    List.take_append_of_le_length hj'.le, negativePart]

theorem standardColumns (hp : p.WellFormed) : StandardColumns p p.standardForm := by
  have hslacked := slacked_equalities hp
  have hslack := slackColumns_equalities hp
  have hsplit := splitColumns_standardForm hp
  have hsplitted :=
    split_splitVariables hslacked.rectangular (length_restrictions_equalities hp) le_rfl
  have hn := n_equalities hp
  have hm : p.equalities.m = p.m := hslacked.m.trans m_toMaximize
  have hrestrictions := restrictions_equalities hp
  have free : ∀ j < p.n, p.restrictions[j]? = some .unrestricted →
      p.equalities.restrictions[j]? = some .unrestricted := by
    intro j hj hfree
    rw [hrestrictions, List.getElem?_append_left (hp.restrictions ▸ hj), hfree]
  have slack_lt : ∀ l < p.m, p.relations[l]? ≠ some .equal →
      p.n + p.slacksBefore l < p.equalities.n := by
    intro l hl hne
    have hlt := slacksBefore_lt hl hp.relations.ge hne
    rw [hn, slackCount]
    exact Nat.add_lt_add_left hlt p.n
  -- every part is read through the split columns first, then through the slack columns
  refine ⟨?_, ?_, ?_, ?_, ?_, ?_, ?_, ?_, ?_⟩
  · refine hsplitted.n.trans ?_
    rw [splitsBefore, ← length_restrictions_equalities hp, List.take_length,
      length_restrictions_equalities hp, hn, hrestrictions, List.count_append, List.count_replicate,
      if_neg (by decide), Nat.add_zero]
  · exact hsplitted.m.trans hm
  · intro i hi j hj
    refine (hsplit.entry i (hm ▸ hi) j (by omega)).trans ?_
    rw [hslack.entry i (by simpa using hi) j (by simpa using hj), if_pos hi, asUpper_toMaximize,
      entry_toMaximize]
  · intro l hl hne i hi
    refine (hsplit.entry i (hm ▸ hi) _ (slack_lt l hl hne)).trans ?_
    have hcolumn := hslack.slack l hl (by rwa [relations_toMaximize]) i (by simpa using hi)
    rwa [n_toMaximize, slacksBefore_toMaximize] at hcolumn
  · intro j hj hfree i hi
    rw [← negativePart_eq hp hj]
    refine (hsplit.negative j (by omega) (free j hj hfree) i (hm ▸ hi)).trans ?_
    exact congrArg (- ·) (hsplit.entry i (hm ▸ hi) j (by omega)).symm
  · intro j hj
    refine (hsplit.cost j (by omega)).trans ?_
    rw [hslack.cost j (by simpa using hj), cost_toMaximize hj]
  · intro l hl hne
    refine (hsplit.cost _ (slack_lt l hl hne)).trans ?_
    have hcolumn := hslack.cost_slack l hl (by rwa [relations_toMaximize])
    rwa [n_toMaximize, slacksBefore_toMaximize] at hcolumn
  · intro j hj hfree
    rw [← negativePart_eq hp hj]
    refine (hsplit.cost_negative j (by omega) (free j hj hfree)).trans ?_
    exact congrArg (- ·) (hsplit.cost j (by omega)).symm
  · intro i hi
    refine (hsplit.value i (hm ▸ hi)).trans ?_
    rw [hslack.value i (by simpa using hi), if_pos hi, asUpper_toMaximize, value_toMaximize]

end StandardForm

end Program

namespace Action
open Program

/-- The standard form means what the program means. It maximises under equalities over non-negative
    variables, which are those of the program, the slack variables and the negative parts. A point
    is feasible if and only if it is read from a non-negative solution of the standard form, and
    then the objective of the standard form is that of the program, negated for a minimum. -/
theorem standardize_preserves {s : Session ℚ} (hp : s.program.Rectangular)
    (hrelations : s.program.relations.length = s.program.m)
    (hrestrictions : s.program.restrictions.length = s.program.n)
    (hflag : s.program.standard = false) :
    ∃ s', Action.standardize s = .ok () s' ∧ s'.program.WellFormed ∧ s'.program.IsStandard ∧
      s'.program.standard = true ∧ s'.program.simplex = false ∧
      StandardColumns s.program s'.program ∧
      (∀ x, s.program.Feasible x ↔ ∃ y, s'.program.NonNegative y ∧ s'.program.Solves y ∧
        ∀ j < s.program.n, x j = s.program.recoverPoint y j) ∧
      ∀ x y, (∀ j < s.program.n, x j = s.program.recoverPoint y j) →
        s'.program.objectiveAt y = s.program.objective.asMaximum (s.program.objectiveAt x) := by
  have hwf : s.program.WellFormed :=
    ⟨hp, hrelations, hrestrictions, fun hs => absurd (hflag.symm.trans hs) Bool.false_ne_true⟩
  have hform := standardFormOf_standardForm hwf
  refine ⟨_, standardize_eq hwf hflag, hform.wellFormed, hform.isStandard, rfl, rfl,
    standardColumns hwf, hform.feasible_iff_exists, ?_⟩
  intro x y hxy
  rw [hform.objectiveAt, objectiveAt_congr hxy]

end Action

namespace Program

/-- A constraint of each kind, and an unrestricted variable on either side of a non-negative one. -/
def mixedRows : Program ℚ :=
  { objective := .minimize
    costs := [1, 2, 3]
    constant := 5
    restrictions := [.unrestricted, .nonNegative, .unrestricted]
    relations := [.greaterEqual, .equal, .lessEqual]
    rhs := [1, 2, -3]
    rows := [[1, 2, 3], [4, 5, 6], [7, 8, 9]]
    standard := false
    simplex := false
    tolerance := 0 }

end Program

namespace Action
open Program

/-- Three variables take two slack variables and two negative parts. -/
theorem standardize_preserves_mixedRows :
    ∃ s', Action.standardize (Session.start mixedRows) = .ok () s' ∧ s'.program.IsStandard ∧
      s'.program.n = 7 ∧ StandardColumns mixedRows s'.program ∧
      (∀ x, mixedRows.Feasible x ↔ ∃ y, s'.program.NonNegative y ∧ s'.program.Solves y ∧
        ∀ j < 3, x j = mixedRows.recoverPoint y j) ∧
      ∀ x y, (∀ j < 3, x j = mixedRows.recoverPoint y j) →
        s'.program.objectiveAt y = -mixedRows.objectiveAt x := by
  obtain ⟨s', hs', _, hstandard, _, _, hcolumns, hfeasible, hobjective⟩ :=
    standardize_preserves (s := Session.start mixedRows) (by decide) rfl rfl rfl
  exact ⟨s', hs', hstandard, hcolumns.n.trans (by decide +kernel), hcolumns, hfeasible, hobjective⟩

end Action

end Simplex
