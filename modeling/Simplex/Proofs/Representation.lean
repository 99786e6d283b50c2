import Mathlib.Algebra.Order.Group.MinMax
import Mathlib.Logic.Function.Basic
import Simplex.Proofs.Column
/-! Programs that say the same of different variables. Every step towards the standard form, a
    negated row, a slack variable, a variable split into a difference, leads to a program whose
    feasible points stand for those of the program before, with the same value of the objective.
    Steps of this kind compose. -/

namespace Simplex.Program

/-- The feasible points `y` of `q` stand for the feasible points `f y` of `p`. -/
structure Represents (p q : Program ℚ) (f : Point → Point) : Prop where
  reads : ∀ {y z : Point}, (∀ j < q.n, y j = z j) → ∀ j < p.n, f y j = f z j
  sound : ∀ y, q.Feasible y → p.Feasible (f y)
  complete : ∀ x, p.Feasible x → ∃ y, q.Feasible y ∧ ∀ j < p.n, f y j = x j
  objectiveAt : ∀ y, p.objectiveAt (f y) = q.objectiveAt y

namespace Represents
variable {p q r : Program ℚ} {f g : Point → Point}

theorem refl (p : Program ℚ) : Represents p p id :=
  ⟨fun h => h, fun _ h => h, fun x h => ⟨x, h, fun _ _ => rfl⟩, fun _ => rfl⟩

theorem comp (hf : Represents p q f) (hg : Represents q r g) : Represents p r (f ∘ g) := by
  refine ⟨fun h => hf.reads (hg.reads h), fun y hy => hf.sound _ (hg.sound y hy), ?_, ?_⟩
  · intro x hx
    obtain ⟨y, hy, hyx⟩ := hf.complete x hx
    obtain ⟨z, hz, hzy⟩ := hg.complete y hy
    exact ⟨z, hz, fun j hj => (hf.reads hzy j hj).trans (hyx j hj)⟩
  · intro y
    rw [Function.comp_apply, hf.objectiveAt, hg.objectiveAt]

/-- Only the coordinates of the variables count. -/
theorem congr (hf : Represents p q f) (h : ∀ y, ∀ j < p.n, f y j = g y j) : Represents p q g := by
  refine ⟨?_, fun y hy => (hf.sound y hy).congr (h y), ?_, ?_⟩
  · intro y z hyz j hj
    rw [← h _ j hj, ← h _ j hj]
    exact hf.reads hyz j hj
  · intro x hx
    obtain ⟨y, hy, hyx⟩ := hf.complete x hx
    exact ⟨y, hy, fun j hj => by rw [← h y j hj, hyx j hj]⟩
  · intro y
    rw [← hf.objectiveAt y]
    exact objectiveAt_congr fun j hj => (h y j hj).symm

end Represents

/-! ### Slack variables -/

section Slack
variable {p : Program ℚ} {i : ℕ}

/-- Constraint `i` negated, which turns `≥` into `≤`. -/
def turned (p : Program ℚ) (i : ℕ) : Program ℚ :=
  { p.negateRow i with relations := p.relations.set i .lessEqual }

/-- Constraint `i` as an equality with a slack variable. -/
def slackened (p : Program ℚ) (i : ℕ) : Program ℚ :=
  { p with relations := p.relations.set i .equal }.appendVariable 0 (Scalar.unit p.m i) .nonNegative

theorem addSlack_equal (h : p.relations[i]? = some .equal) : p.addSlack i = p := by
  simp only [addSlack, h]

@[simp] theorem m_turned : (p.turned i).m = p.m := by
  simp [turned, negateRow, m]

theorem rectangular_turned (hp : p.Rectangular) : (p.turned i).Rectangular := by
  refine ⟨by rw [m_turned, ← hp.rows]; simp [turned, negateRow], ?_⟩
  intro row hrow
  obtain ⟨k, hk, rfl⟩ := List.mem_iff_getElem.1 hrow
  have hk' : k < p.rows.length := by simpa [turned, negateRow] using hk
  have hlen := hp.row _ (List.getElem_mem hk')
  simp only [turned, negateRow, List.getElem_modify]
  split_ifs
  · rw [List.length_map, hlen]
    rfl
  · exact hlen

theorem rowAt_turned (hp : p.Rectangular) {k : ℕ} (hk : k < p.m) (x : Point) :
    (p.turned i).rowAt k x = if k = i then -p.rowAt k x else p.rowAt k x := by
  have hk' : k < p.rows.length := hp.rows ▸ hk
  have hrow : (p.turned i).row k = if k = i then (p.row k).map (- ·) else p.row k :=
    getD_modify hk' _ []
  split_ifs with h
  · exact rowAt_of_row_neg (p.turned i) hp rfl hk (hrow.trans (if_pos h)) x
  · rw [if_neg h] at hrow
    simp only [rowAt, entry, hrow]
    rfl

theorem value_turned {k : ℕ} (hk : k < p.m) :
    (p.turned i).value k = if k = i then -p.value k else p.value k :=
  getD_modify (i := i) hk _ 0

theorem feasible_turned (hp : p.Rectangular) (h : p.relations[i]? = some .greaterEqual)
    (x : Point) :
    (p.turned i).Feasible x ↔ p.Feasible x := by
  have hlt : i < p.relations.length := (List.getElem?_eq_some_iff.1 h).1
  have hrel : ∀ k, (p.turned i).relations[k]? = if k = i then some .lessEqual
      else p.relations[k]? :=
    getElem?_set_of_lt hlt .lessEqual
  constructor
  · refine fun hx => ⟨fun k hk r hr => ?_, hx.restrictions⟩
    have hxk := hx.relations k (m_turned.symm ▸ hk)
    rw [hrel, rowAt_turned hp hk, value_turned hk] at hxk
    by_cases hki : k = i
    · rw [if_pos hki, if_pos hki, if_pos hki] at hxk
      rw [hki, h] at hr
      cases hr
      exact neg_le_neg_iff.1 (hxk _ rfl)
    · rw [if_neg hki, if_neg hki, if_neg hki] at hxk
      exact hxk r hr
  · refine fun hx => ⟨fun k hk r hr => ?_, hx.restrictions⟩
    rw [m_turned] at hk
    rw [hrel] at hr
    rw [rowAt_turned hp hk, value_turned hk]
    by_cases hki : k = i
    · rw [if_pos hki] at hr ⊢
      rw [if_pos hki]
      cases hr
      have hge : p.value k ≤ p.rowAt k x := hx.relations k hk .greaterEqual (by rw [hki, h])
      exact neg_le_neg hge
    · rw [if_neg hki] at hr ⊢
      rw [if_neg hki]
      exact hx.relations k hk r hr

theorem represents_turned (hp : p.Rectangular) (h : p.relations[i]? = some .greaterEqual) :
    Represents p (p.turned i) id :=
  ⟨fun h => h, fun y hy => (feasible_turned hp h y).1 hy,
    fun x hx => ⟨x, (feasible_turned hp h x).2 hx, fun _ _ => rfl⟩, fun _ => rfl⟩

/-- Constraint `i` with `≤` in the place of `≥`. -/
def bounded (p : Program ℚ) (i : ℕ) : Program ℚ :=
  if p.relations[i]? = some .greaterEqual then p.turned i else p

theorem bounded_frame : p.bounded i =
    { p with
      relations := (p.bounded i).relations, rhs := (p.bounded i).rhs
      rows := (p.bounded i).rows } := by
  rw [bounded]
  split_ifs <;> rfl

@[simp] theorem n_bounded : (p.bounded i).n = p.n := by
  rw [bounded_frame]
  rfl

@[simp] theorem m_bounded : (p.bounded i).m = p.m := by
  rw [bounded]
  split_ifs
  · exact m_turned
  · rfl

theorem rectangular_bounded (hp : p.Rectangular) : (p.bounded i).Rectangular := by
  rw [bounded]
  split_ifs
  · exact rectangular_turned hp
  · exact hp

theorem represents_bounded (hp : p.Rectangular) : Represents p (p.bounded i) id := by
  rw [bounded]
  split_ifs with h
  · exact represents_turned hp h
  · exact .refl p

@[simp] theorem set_relations_bounded (r : Relation) :
    (p.bounded i).relations.set i r = p.relations.set i r := by
  rw [bounded]
  split_ifs
  · exact List.set_set _
  · rfl

theorem relations_bounded (h : i < p.relations.length) (hne : p.relations[i] ≠ .equal) :
    (p.bounded i).relations[i]? = some .lessEqual := by
  rw [bounded, List.getElem?_eq_getElem h]
  cases hrel : p.relations[i] with
  | equal => exact absurd hrel hne
  | lessEqual => rw [if_neg (by decide), List.getElem?_eq_getElem h, hrel]
  | greaterEqual =>
    rw [if_pos rfl]
    exact (getElem?_set_of_lt h _ i).trans (if_pos rfl)

/-- A constraint that is no equality takes a slack variable once it is bounded from above. -/
theorem addSlack_of_ne (h : i < p.relations.length) (hne : p.relations[i] ≠ .equal) :
    p.addSlack i = (p.bounded i).slackened i := by
  simp only [addSlack, equalize, bounded, slackened, List.getElem?_eq_getElem h]
  cases hrel : p.relations[i] with
  | equal => exact absurd hrel hne
  | lessEqual =>
    rw [if_neg (by decide)]
  | greaterEqual =>
    simp only [if_true, m_turned]
    simp only [turned, List.set_set]

@[simp] theorem n_slackened : (p.slackened i).n = p.n + 1 := n_appendVariable _ _ _ _

theorem rectangular_slackened (hp : p.Rectangular) : (p.slackened i).Rectangular := by
  have hp' : Rectangular { p with relations := p.relations.set i .equal } := ⟨hp.rows, hp.row⟩
  exact rectangular_appendVariable hp' (length_unit p.m i)

theorem rowAt_slackened (hp : p.Rectangular) {k : ℕ} (hk : k < p.m) (y : Point) :
    (p.slackened i).rowAt k y = p.rowAt k y + if k = i then y p.n else 0 := by
  have hp' : Rectangular { p with relations := p.relations.set i .equal } := ⟨hp.rows, hp.row⟩
  refine (rowAt_appendVariable hp' (length_unit p.m i) hk y).trans ?_
  rw [getD_unit i hk]
  change p.rowAt k y + _ * y p.n = _
  split_ifs
  · rw [one_mul]
  · rw [zero_mul]

@[simp] theorem objectiveAt_slackened (y : Point) :
    (p.slackened i).objectiveAt y = p.objectiveAt y := by
  rw [slackened, objectiveAt_appendVariable, zero_mul, add_zero]
  rfl

theorem restrictions_slackened_lt {j : ℕ} (hj : j < p.n) (hr : p.restrictions.length = p.n) :
    (p.slackened i).restrictions[j]? = p.restrictions[j]? :=
  List.getElem?_append_left (hr ▸ hj)

theorem restrictions_slackened_n (hr : p.restrictions.length = p.n) :
    (p.slackened i).restrictions[p.n]? = some .nonNegative := by
  rw [← hr]
  exact List.getElem?_concat_length

theorem relations_slackened (h : i < p.relations.length) (k : ℕ) :
    (p.slackened i).relations[k]? = if k = i then some .equal else p.relations[k]? :=
  getElem?_set_of_lt h .equal k

/-- The slack variable takes up what the row leaves below its right-hand side. -/
theorem feasible_slackened (hp : p.Rectangular) (hr : p.restrictions.length = p.n)
    (h : p.relations[i]? = some .lessEqual) (hi : i < p.m) (y : Point) :
    (p.slackened i).Feasible y ↔ p.Feasible y ∧ p.rowAt i y + y p.n = p.value i := by
  have hrel := relations_slackened (List.getElem?_eq_some_iff.1 h).1
  constructor
  · intro hy
    have hrow : p.rowAt i y + y p.n = p.value i := by
      have hyi := hy.relations i hi .equal (by rw [hrel, if_pos rfl])
      rwa [rowAt_slackened hp hi, if_pos rfl] at hyi
    have hslack : 0 ≤ y p.n := hy.restrictions p.n (by simp) (restrictions_slackened_n hr)
    refine ⟨⟨?_, ?_⟩, hrow⟩
    · intro k hk r hkr
      by_cases hki : k = i
      · subst hki
        rw [h] at hkr
        cases hkr
        change p.rowAt k y ≤ p.value k
        linarith
      · have hyk := hy.relations k hk r (by rw [hrel, if_neg hki, hkr])
        rwa [rowAt_slackened hp hk, if_neg hki, add_zero] at hyk
    · intro j hj hres
      refine hy.restrictions j ?_ ?_
      · rw [n_slackened]
        omega
      · rw [restrictions_slackened_lt hj hr, hres]
  · rintro ⟨hy, hrow⟩
    refine ⟨?_, ?_⟩
    · intro k hk r hkr
      rw [hrel] at hkr
      rw [rowAt_slackened hp hk]
      by_cases hki : k = i
      · subst hki
        rw [if_pos rfl] at hkr ⊢
        cases hkr
        exact hrow
      · rw [if_neg hki] at hkr ⊢
        rw [add_zero]
        exact hy.relations k hk r hkr
    · intro j hj hres
      rw [n_slackened] at hj
      rcases Nat.lt_succ_iff_lt_or_eq.1 hj with hj | rfl
      · rw [restrictions_slackened_lt hj hr] at hres
        exact hy.restrictions j hj hres
      · -- the slack is what row i leaves below its value
        have hle : p.rowAt i y ≤ p.value i := hy.relations i hi _ h
        linarith

theorem represents_slackened (hp : p.Rectangular) (hr : p.restrictions.length = p.n)
    (h : p.relations[i]? = some .lessEqual) (hi : i < p.m) : Represents p (p.slackened i) id := by
  refine ⟨fun hyz j hj => hyz j ?_, fun y hy => ((feasible_slackened hp hr h hi y).1 hy).1, ?_,
    fun y => (objectiveAt_slackened y).symm⟩
  · rw [n_slackened]
    omega
  · intro x hx
    let y := Function.update x p.n (p.value i - p.rowAt i x)
    have hyx : ∀ j < p.n, x j = y j := fun j hj => (Function.update_of_ne hj.ne _ _).symm
    have hyn : y p.n = p.value i - p.rowAt i x := Function.update_self _ _ _
    refine ⟨y, (feasible_slackened hp hr h hi y).2 ⟨hx.congr hyx, ?_⟩, fun j hj => (hyx j hj).symm⟩
    rw [← rowAt_congr hyx, hyn]
    ring

end Slack

/-! ### Negative parts -/

section Split
variable {p : Program ℚ} {j : ℕ}

/-- The point in which variable `j` is the difference of the variables `j` and `n`. -/
def merge (j n : ℕ) (y : Point) : Point := Function.update y j (y j - y n)

/-- The point in which the variables `j` and `n` are the positive and the negative
    part of coordinate `j`. -/
def parts (j n : ℕ) (x : Point) : Point :=
  Function.update (Function.update x j (max (x j) 0)) n (max (-x j) 0)

@[simp] theorem merge_self (n : ℕ) (y : Point) : merge j n y j = y j - y n :=
  Function.update_self _ _ _

theorem merge_of_ne {k : ℕ} (hk : k ≠ j) (n : ℕ) (y : Point) : merge j n y k = y k :=
  Function.update_of_ne hk _ _

@[simp] theorem parts_n (n : ℕ) (x : Point) : parts j n x n = max (-x j) 0 :=
  Function.update_self _ _ _

theorem parts_of_lt {k n : ℕ} (hk : k < n) (x : Point) :
    parts j n x k = if k = j then max (x j) 0 else x k := by
  rw [parts, Function.update_of_ne hk.ne]
  split_ifs with hkj
  · rw [hkj, Function.update_self]
  · rw [Function.update_of_ne hkj]

theorem merge_parts {k n : ℕ} (hj : j < n) (hk : k < n) (x : Point) :
    merge j n (parts j n x) k = x k := by
  by_cases hkj : k = j
  · rw [hkj, merge_self, parts_n, parts_of_lt hj, if_pos rfl, max_zero_sub_max_neg_zero_eq_self]
  · rw [merge_of_ne hkj, parts_of_lt hk, if_neg hkj]

theorem rowAt_update {i : ℕ} (hj : j < p.n) (y : Point) (v : ℚ) :
    p.rowAt i (Function.update y j v) = p.rowAt i y + p.entry i j * (v - y j) := by
  rw [← sub_eq_iff_eq_add', rowAt, rowAt, ← Finset.sum_sub_distrib, Finset.sum_eq_single j]
  · rw [Function.update_self]
    ring
  · intro k _ hk
    rw [Function.update_of_ne hk, sub_self]
  · intro hn
    exact absurd (Finset.mem_range.2 hj) hn

theorem objectiveAt_update (hj : j < p.n) (y : Point) (v : ℚ) :
    p.objectiveAt (Function.update y j v) = p.objectiveAt y + p.cost j * (v - y j) := by
  rw [← sub_eq_iff_eq_add', objectiveAt, objectiveAt, add_sub_add_left_eq_sub,
    ← Finset.sum_sub_distrib, Finset.sum_eq_single j]
  · rw [Function.update_self]
    ring
  · intro k _ hk
    rw [Function.update_of_ne hk, sub_self]
  · intro hn
    exact absurd (Finset.mem_range.2 hj) hn

theorem splitVariable_nonNegative (h : p.restrictions[j]? = some .nonNegative) :
    p.splitVariable j = p := by
  simp only [splitVariable, h]

theorem splitVariable_unrestricted (h : p.restrictions[j]? = some .unrestricted) :
    p.splitVariable j =
      (p.restrict j).appendVariable (-p.cost j) ((p.column j).map (- ·)) .nonNegative := by
  simp only [splitVariable, h]

theorem length_column (hp : p.Rectangular) : ((p.column j).map (- ·)).length = p.m := by
  simp [column, hp.rows]

variable (h : p.restrictions[j]? = some .unrestricted)
include h

theorem n_splitVariable : (p.splitVariable j).n = p.n + 1 := by
  rw [splitVariable_unrestricted h, n_appendVariable]
  rfl

theorem m_splitVariable : (p.splitVariable j).m = p.m := by
  rw [splitVariable_unrestricted h]
  rfl

theorem rectangular_splitVariable (hp : p.Rectangular) : (p.splitVariable j).Rectangular := by
  have hp' : (p.restrict j).Rectangular := ⟨hp.rows, hp.row⟩
  rw [splitVariable_unrestricted h]
  exact rectangular_appendVariable hp' (length_column hp)

theorem rowAt_splitVariable (hp : p.Rectangular) {i : ℕ} (hi : i < p.m) (hj : j < p.n) (y : Point) :
    (p.splitVariable j).rowAt i y = p.rowAt i (merge j p.n y) := by
  have hq : (p.restrict j).Rectangular := ⟨hp.rows, hp.row⟩
  have hlen : ((p.column j).map (- ·)).length = (p.restrict j).m := length_column hp
  have hentry : ((p.column j).map (- ·)).getD i 0 = -p.entry i j := by
    rw [getD_map _ (by simpa [column, hp.rows] using hi) 0, column,
      getD_map _ (hp.rows ▸ hi) []]
    rfl
  rw [splitVariable_unrestricted h, rowAt_appendVariable hq hlen hi y, hentry, merge,
    rowAt_update hj]
  change p.rowAt i y + -p.entry i j * y p.n = _
  ring

theorem objectiveAt_splitVariable (hj : j < p.n) (y : Point) :
    (p.splitVariable j).objectiveAt y = p.objectiveAt (merge j p.n y) := by
  rw [splitVariable_unrestricted h, objectiveAt_appendVariable, merge, objectiveAt_update hj]
  change p.objectiveAt y + -p.cost j * y p.n = _
  ring

variable (hr : p.restrictions.length = p.n)
include hr

theorem restrictions_splitVariable_lt {k : ℕ} (hk : k < p.n) :
    (p.splitVariable j).restrictions[k]? =
      if k = j then some .nonNegative else p.restrictions[k]? := by
  have hj : j < p.restrictions.length := (List.getElem?_eq_some_iff.1 h).1
  have hk : k < (p.restrictions.set j .nonNegative).length := by
    rw [List.length_set, hr]
    exact hk
  rw [splitVariable_unrestricted h]
  exact (List.getElem?_append_left hk).trans (getElem?_set_of_lt hj _ k)

variable (hp : p.Rectangular)
include hp

/-- An unrestricted variable is the difference of two non-negative ones. -/
theorem represents_splitVariable : Represents p (p.splitVariable j) (merge j p.n) := by
  have hj : j < p.n := hr ▸ (List.getElem?_eq_some_iff.1 h).1
  have hn := n_splitVariable h
  have hm := m_splitVariable h
  have hrel : (p.splitVariable j).relations = p.relations := by
    rw [splitVariable_unrestricted h]
    rfl
  have hvalue : ∀ i, (p.splitVariable j).value i = p.value i := by
    intro i
    rw [splitVariable_unrestricted h]
    rfl
  refine ⟨?_, fun y hy => ⟨?_, ?_⟩, ?_, fun y => (objectiveAt_splitVariable h hj y).symm⟩
  · intro y z hyz k hk
    by_cases hkj : k = j
    · rw [hkj, merge_self, merge_self, hyz j (by omega), hyz p.n (by omega)]
    · rw [merge_of_ne hkj, merge_of_ne hkj, hyz k (by omega)]
  · intro i hi r hri
    rw [← rowAt_splitVariable h hp hi hj, ← hvalue i]
    exact hy.relations i (hm ▸ hi) r (hrel ▸ hri)
  · intro k hk hres
    -- variable j has no sign in p, and the merged point needs none
    have hkj : k ≠ j := by
      rintro rfl
      rw [h] at hres
      cases hres
    rw [merge_of_ne hkj]
    exact hy.restrictions k (by omega)
      (by rw [restrictions_splitVariable_lt h hr hk, if_neg hkj, hres])
  · -- back: the positive and the negative part of x j merge into x j
    intro x hx
    have hmerge : ∀ k < p.n, merge j p.n (parts j p.n x) k = x k := fun k hk => merge_parts hj hk x
    refine ⟨parts j p.n x, ⟨?_, ?_⟩, hmerge⟩
    · intro i hi r hri
      rw [hm] at hi
      rw [rowAt_splitVariable h hp hi hj, rowAt_congr hmerge, hvalue]
      exact hx.relations i hi r (hrel ▸ hri)
    · intro k hk hres
      rw [hn] at hk
      rcases Nat.lt_succ_iff_lt_or_eq.1 hk with hk | rfl
      · rw [restrictions_splitVariable_lt h hr hk] at hres
        rw [parts_of_lt hk]
        split_ifs with hkj
        · exact le_max_right _ _
        · rw [if_neg hkj] at hres
          exact hx.restrictions k hk hres
      · rw [parts_n]
        exact le_max_right _ _

end Split

end Simplex.Program
