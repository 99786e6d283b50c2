import Simplex.Proofs.Meaning
import Simplex.Tableau.TwoPhase
/-! The shape of a program: a matrix with a row for every right-hand side and a column for every
    cost, a restriction for every variable, and a relation for every constraint at least. Whatever
    the scalars are, every change that an operation makes to a program keeps its shape. -/

namespace Simplex

variable {K : Type}

@[simp] theorem length_unit [Scalar K] (m i : ℕ) : (Scalar.unit m i : List K).length = m := by
  simp [Scalar.unit]

/-! ### Dropping rows -/

/-- The rows that are left when some of `m` rows are dropped. -/
def keptRows (m : ℕ) (dropped : List ℕ) : List ℕ :=
  (List.range m).filter fun i => !dropped.contains i

theorem mem_keptRows {m i : ℕ} {dropped : List ℕ} :
    i ∈ keptRows m dropped ↔ i < m ∧ i ∉ dropped := by
  rw [keptRows, List.mem_filter, List.mem_range, Bool.not_eq_true', ← Bool.not_eq_true,
    List.contains_iff_mem]

theorem nodup_keptRows (m : ℕ) (dropped : List ℕ) : (keptRows m dropped).Nodup :=
  List.nodup_range.filter _

theorem length_keptRows_le {m k : ℕ} (h : m ≤ k) (dropped : List ℕ) :
    (keptRows m dropped).length ≤ (keptRows k dropped).length :=
  ((List.range_sublist.2 h).filter _).length_le

/-- What is left of a list are its items at the kept positions. -/
theorem dropPositions_eq_map {α : Type} (dropped : List ℕ) (xs : List α) (d : α) :
    dropPositions dropped xs = (keptRows xs.length dropped).map fun i => xs.getD i d := by
  have hzip : xs.zipIdx = (List.range xs.length).map fun i => (xs.getD i d, i) := by
    refine List.ext_getElem (by simp) fun i hi _ => ?_
    have hi : i < xs.length := by simpa using hi
    simp [hi]
  rw [dropPositions, hzip, List.filter_map, List.map_map]
  rfl

@[simp] theorem length_dropPositions {α : Type} (dropped : List ℕ) (xs : List α) :
    (dropPositions dropped xs).length = (keptRows xs.length dropped).length := by
  cases xs with
  | nil => rfl
  | cons x xs => rw [dropPositions_eq_map dropped (x :: xs) x, List.length_map]

theorem mem_of_mem_dropPositions {α : Type} {dropped : List ℕ} {xs : List α} {x : α}
    (h : x ∈ dropPositions dropped xs) : x ∈ xs := by
  obtain ⟨⟨y, i⟩, hy, rfl⟩ := List.mem_map.1 h
  exact List.fst_mem_of_mem_zipIdx (List.mem_filter.1 hy).1

/-! ### Loops -/

theorem length_foldl_set_zero [Scalar K] (js : List ℕ) (xs : List K) :
    (js.foldl (fun c j => c.set j 0) xs).length = xs.length :=
  foldl_eq_of_step List.length (fun _ _ => List.length_set) js xs

theorem length_pointOf [Scalar K] (n : ℕ) (basis : List ℕ) (values : List K) :
    (Program.pointOf n basis values).length = n := by
  rw [Program.pointOf, foldl_eq_of_step List.length (fun _ _ => List.length_set),
    List.length_replicate]

namespace Program
variable {p : Program K}

/-! ### The matrix -/

theorem rectangular_appendVariable {c : K} {column : List K} {kind : Restriction}
    (hp : p.Rectangular) (hc : column.length = p.m) :
    (p.appendVariable c column kind).Rectangular := by
  refine ⟨?_, ?_⟩
  · rw [m_appendVariable]
    simp only [appendVariable, List.length_zipWith, hp.rows, hc, Nat.min_self]
  · intro row hrow
    rw [n_appendVariable]
    obtain ⟨i, hi, rfl⟩ := List.mem_iff_getElem.1 hrow
    simp only [appendVariable, List.getElem_zipWith, List.length_append, List.length_singleton]
    rw [hp.row _ (List.getElem_mem _)]

section Strip
variable {n : ℕ} {dropped : List ℕ}

theorem n_strip (hn : n ≤ p.n) : (p.strip n dropped).n = n := by
  simp only [Program.n, strip, List.length_take]
  exact Nat.min_eq_left hn

theorem m_strip : (p.strip n dropped).m = (keptRows p.m dropped).length :=
  length_dropPositions dropped p.rhs

theorem rectangular_strip (hp : p.Rectangular) (hn : n ≤ p.n) :
    (p.strip n dropped).Rectangular := by
  refine ⟨?_, ?_⟩
  · rw [m_strip, ← hp.rows]
    simp only [strip, List.length_map, length_dropPositions]
  · intro row hrow
    obtain ⟨r, hr, rfl⟩ := List.mem_map.1 hrow
    rw [n_strip hn, List.length_take, hp.row r (mem_of_mem_dropPositions hr)]
    exact Nat.min_eq_left hn

end Strip

section Scalars
variable [Scalar K]

theorem toMaximize_frame (p : Program K) : p.toMaximize = { p with
    objective := .maximize, costs := p.toMaximize.costs, constant := p.toMaximize.constant } := by
  cases h : p.objective <;> simp [toMaximize, h]
  · cases p
    simp_all

@[simp] theorem n_toMaximize : p.toMaximize.n = p.n := by
  cases h : p.objective <;> simp [toMaximize, n, h]

@[simp] theorem m_toMaximize : p.toMaximize.m = p.m := by
  rw [toMaximize_frame]
  rfl

@[simp] theorem objective_toMaximize : p.toMaximize.objective = .maximize := by
  rw [toMaximize_frame]

@[simp] theorem relations_toMaximize : p.toMaximize.relations = p.relations := by
  rw [toMaximize_frame]

@[simp] theorem restrictions_toMaximize : p.toMaximize.restrictions = p.restrictions := by
  rw [toMaximize_frame]

@[simp] theorem tolerance_toMaximize : p.toMaximize.tolerance = p.tolerance := by
  rw [toMaximize_frame]

theorem rectangular_toMaximize (hp : p.Rectangular) : p.toMaximize.Rectangular := by
  refine ⟨?_, ?_⟩
  · rw [m_toMaximize, toMaximize_frame]
    exact hp.rows
  · intro row hrow
    rw [toMaximize_frame] at hrow
    rw [n_toMaximize]
    exact hp.row row hrow

@[simp] theorem n_normalizeSigns : p.normalizeSigns.n = p.n := rfl

@[simp] theorem m_normalizeSigns : p.normalizeSigns.m = p.m := by
  simp [normalizeSigns, m]

theorem rectangular_normalizeSigns (hp : p.Rectangular) : p.normalizeSigns.Rectangular := by
  refine ⟨?_, ?_⟩
  · simp only [normalizeSigns, List.length_zipWith, m, List.length_map]
    rw [hp.rows, m, Nat.min_self]
  · intro row hrow
    obtain ⟨k, hk, rfl⟩ := List.mem_iff_getElem.1 hrow
    simp only [normalizeSigns, List.getElem_zipWith]
    split_ifs
    · rw [List.length_map]
      exact hp.row _ (List.getElem_mem _)
    · exact hp.row _ (List.getElem_mem _)

@[simp] theorem n_auxiliaryObjective (absolute : Bool) :
    (p.auxiliaryObjective absolute).n = p.n := by
  simp [auxiliaryObjective, n]

theorem rectangular_auxiliaryObjective (hp : p.Rectangular) (absolute : Bool) :
    (p.auxiliaryObjective absolute).Rectangular := by
  refine ⟨hp.rows, ?_⟩
  intro row hrow
  rw [n_auxiliaryObjective]
  exact hp.row row hrow

@[simp] theorem m_equalize (i : ℕ) : (p.equalize i).m = p.m := by
  unfold equalize
  split <;> simp [negateRow, m]

@[simp] theorem n_equalize (i : ℕ) : (p.equalize i).n = p.n := by
  unfold equalize
  split <;> rfl

@[simp] theorem relations_equalize (i : ℕ) :
    (p.equalize i).relations = p.relations.set i .equal := by
  unfold equalize
  split <;> rfl

/-- The program with constraint `i` made an equality by a slack variable. -/
def addSlack (i : ℕ) (p : Program K) : Program K :=
  match p.relations[i]? with
  | none | some .equal => p
  | some _ => (p.equalize i).appendVariable 0 (Scalar.unit p.m i) .nonNegative

/-- The program with variable `j` split into a difference. -/
def splitVariable (j : ℕ) (p : Program K) : Program K :=
  match p.restrictions[j]? with
  | some .unrestricted =>
    (p.restrict j).appendVariable (-p.cost j) ((p.column j).map (- ·)) .nonNegative
  | _ => p

/-- The program with an artificial variable for each of the first `k` constraints. -/
def artificials (p : Program K) (k : ℕ) : Program K :=
  (List.range k).foldl (fun q i => q.appendVariable 0 (Scalar.unit p.m i) .nonNegative) p

/-- The program with an artificial variable for each constraint. -/
def addArtificials (p : Program K) : Program K := p.artificials p.m

/-- A program in standard form, prepared for the first phase. -/
def auxiliary (absolute : Bool) (p : Program K) : Program K :=
  { (p.normalizeSigns.auxiliaryObjective absolute).addArtificials with simplex := true }

theorem artificials_succ (p : Program K) (k : ℕ) :
    p.artificials (k + 1) = (p.artificials k).appendVariable 0
      (Scalar.unit p.m k) .nonNegative := by
  rw [artificials, List.range_succ, List.foldl_append]
  rfl

@[simp] theorem m_artificials (p : Program K) (k : ℕ) : (p.artificials k).m = p.m := by
  induction k with
  | zero => rfl
  | succ k ih => rw [artificials_succ, m_appendVariable, ih]

section Pivot
variable {r s : ℕ}

theorem n_pivot (hp : p.Rectangular) (hr : r < p.m) : (p.pivot r s).n = p.n := by
  simp only [n, pivot, List.length_set, List.length_zipWith, row_length hp hr, Nat.min_self]

theorem m_pivot (hp : p.Rectangular) : (p.pivot r s).m = p.m := by
  simp only [m, pivot, List.length_set, List.length_zipWith]
  rw [hp.rows, m, Nat.min_self]

theorem rectangular_pivot (hp : p.Rectangular) (hr : r < p.m) : (p.pivot r s).Rectangular := by
  refine ⟨?_, ?_⟩
  · rw [m_pivot hp, ← hp.rows]
    simp only [pivot, List.length_set, List.length_map]
  · intro row hrow
    rw [n_pivot hp hr]
    rcases List.mem_or_eq_of_mem_set hrow with hmem | rfl
    · obtain ⟨other, hother, rfl⟩ := List.mem_map.1 hmem
      simp only [List.length_set, List.length_zipWith, hp.row other hother, row_length hp hr,
        Nat.min_self]
    · simp only [List.length_set, List.length_map, row_length hp hr]

end Pivot

section Objective
variable {P : Program K} {basis : List ℕ}

@[simp] theorem n_withObjective : (p.withObjective P basis).n = P.n := by
  simp only [n, withObjective, length_foldl_set_zero, List.length_map, List.length_range]

theorem rectangular_withObjective (hp : p.Rectangular) (hn : p.n = P.n) :
    (p.withObjective P basis).Rectangular := by
  refine ⟨hp.rows, ?_⟩
  intro row hrow
  rw [n_withObjective, ← hn]
  exact hp.row row hrow

end Objective

end Scalars

/-! ### All parts -/

/-- The parts of the program fit together: an `m × n` matrix, a restriction for every variable and a
    relation for every constraint. There may be relations left over. -/
structure Shaped (p : Program K) : Prop extends Rectangular p where
  restrictions : p.restrictions.length = p.n
  relations : p.m ≤ p.relations.length

theorem WellFormed.shaped (hp : p.WellFormed) : p.Shaped :=
  ⟨hp.toRectangular, hp.restrictions, hp.relations.ge⟩

theorem shaped_empty [Scalar K] (objective : Objective) (tolerance : K) :
    (empty objective tolerance).Shaped :=
  ⟨⟨rfl, by simp [empty]⟩, rfl, le_rfl⟩

namespace Shaped
variable (h : p.Shaped)
include h

theorem congr {q : Program K} (hq : q = { p with
    objective := q.objective, constant := q.constant, standard := q.standard, simplex := q.simplex,
    tolerance := q.tolerance }) : q.Shaped := by
  rw [hq]
  exact ⟨⟨h.rows, h.row⟩, h.restrictions, h.relations⟩

theorem lowerFlags (keeps : Bool) : (p.lowerFlags keeps).Shaped := h.congr rfl

theorem withRelations {relations : List Relation} (hlen : p.m ≤ relations.length) :
    Shaped { p with relations } :=
  ⟨⟨h.rows, h.row⟩, h.restrictions, hlen⟩

theorem withRestrictions {restrictions : List Restriction} (hlen : restrictions.length = p.n) :
    Shaped { p with restrictions } :=
  ⟨⟨h.rows, h.row⟩, hlen, h.relations⟩

theorem restrict (j : ℕ) : (p.restrict j).Shaped := h.withRestrictions (by simp [h.restrictions])

theorem appendVariable (c : K) {column : List K} (kind : Restriction) (hc : column.length = p.m) :
    (p.appendVariable c column kind).Shaped := by
  refine ⟨rectangular_appendVariable h.toRectangular hc, ?_, h.relations⟩
  rw [n_appendVariable, ← h.restrictions]
  simp [Program.appendVariable]

theorem appendRelation (r : Relation) : (p.appendRelation r).Shaped := by
  refine ⟨⟨h.rows, h.row⟩, h.restrictions, h.relations.trans ?_⟩
  simp [Program.appendRelation]

theorem appendConstraint (r : Relation) (b : K) {row : List K} (hrow : row.length = p.n) :
    (p.appendConstraint r b row).Shaped := by
  refine ⟨⟨?_, ?_⟩, h.restrictions, ?_⟩
  · rw [m_appendConstraint, ← h.rows]
    simp [Program.appendConstraint, Program.appendRelation, Program.lowerFlags, appendRow]
  · intro other hother
    rw [n_appendConstraint]
    rcases List.mem_append.1 hother with hother | hother
    · exact h.row other hother
    · rw [List.mem_singleton.1 hother, hrow]
  · rw [m_appendConstraint]
    simpa [Program.appendConstraint, Program.appendRelation, Program.lowerFlags,
      appendRow] using h.relations

theorem strip {n : ℕ} (hn : n ≤ p.n) (dropped : List ℕ) : (p.strip n dropped).Shaped := by
  refine ⟨rectangular_strip h.toRectangular hn, ?_, ?_⟩
  · rw [n_strip hn]
    simp [Program.strip, h.restrictions, hn]
  · rw [m_strip]
    simpa [Program.strip] using length_keptRows_le h.relations dropped

variable [Scalar K]

theorem toMaximize : p.toMaximize.Shaped :=
  ⟨rectangular_toMaximize h.toRectangular, by simp [h.restrictions], by simp [h.relations]⟩

theorem negateRow (i : ℕ) : (p.negateRow i).Shaped := by
  have hm : (p.negateRow i).m = p.m := by simp [Program.negateRow, m]
  refine ⟨⟨?_, ?_⟩, h.restrictions, hm ▸ h.relations⟩
  · rw [hm, ← h.rows]
    simp [Program.negateRow]
  · intro row hrow
    obtain ⟨k, hk, rfl⟩ := List.mem_iff_getElem.1 hrow
    have hk' : k < p.rows.length := by simpa [Program.negateRow] using hk
    have hlen := h.row _ (List.getElem_mem hk')
    simp only [Program.negateRow, List.getElem_modify]
    split_ifs
    · exact (List.length_map _).trans hlen
    · exact hlen

theorem equalize (i : ℕ) : (p.equalize i).Shaped := by
  have hset : p.m ≤ (p.relations.set i .equal).length := by simp [h.relations]
  unfold Program.equalize
  split
  · have hm : (p.negateRow i).m = p.m := by simp [Program.negateRow, m]
    exact (h.negateRow i).withRelations (hm ▸ hset)
  · exact h.withRelations hset

theorem addSlack (i : ℕ) : (p.addSlack i).Shaped := by
  unfold Program.addSlack
  split
  · exact h
  · exact h
  · exact (h.equalize i).appendVariable _ _ (by simp)

theorem splitVariable (j : ℕ) : (p.splitVariable j).Shaped := by
  unfold Program.splitVariable
  split
  · exact (h.restrict j).appendVariable _ _ (by simp [column, Program.restrict, h.rows, m])
  · exact h

theorem normalizeSigns : p.normalizeSigns.Shaped := by
  refine ⟨rectangular_normalizeSigns h.toRectangular, h.restrictions, ?_⟩
  rw [m_normalizeSigns]
  exact h.relations

theorem auxiliaryObjective (absolute : Bool) : (p.auxiliaryObjective absolute).Shaped := by
  refine ⟨rectangular_auxiliaryObjective h.toRectangular absolute, ?_, h.relations⟩
  rw [n_auxiliaryObjective]
  exact h.restrictions

/-- Every artificial variable comes with a column of `m` coefficients, and adds none to `m`. -/
theorem artificials (k : ℕ) :
    (p.artificials k).Shaped ∧ (p.artificials k).m = p.m ∧ (p.artificials k).n = p.n + k := by
  induction k with
  | zero => exact ⟨h, rfl, rfl⟩
  | succ k ih =>
    obtain ⟨hq, hm, hn⟩ := ih
    rw [artificials_succ]
    refine ⟨hq.appendVariable _ _ (by simp [hm]), hm, ?_⟩
    rw [n_appendVariable, hn, Nat.add_assoc]

theorem auxiliary (absolute : Bool) :
    (p.auxiliary absolute).Shaped ∧ (p.auxiliary absolute).m = p.m ∧
    (p.auxiliary absolute).n = p.n + p.m := by
  have hm' : (p.normalizeSigns.auxiliaryObjective absolute).m = p.m := m_normalizeSigns
  obtain ⟨hq, hm, hn⟩ := (h.normalizeSigns.auxiliaryObjective absolute).artificials
    (p.normalizeSigns.auxiliaryObjective absolute).m
  refine ⟨hq.congr rfl, hm.trans hm', hn.trans ?_⟩
  rw [hm', n_auxiliaryObjective, n_normalizeSigns]

theorem pivot {r : ℕ} (hr : r < p.m) (s : ℕ) : (p.pivot r s).Shaped := by
  refine ⟨rectangular_pivot h.toRectangular hr, ?_, ?_⟩
  · rw [n_pivot h.toRectangular hr]
    exact h.restrictions
  · rw [m_pivot h.toRectangular]
    exact h.relations

theorem withObjective {P : Program K} (hn : p.n = P.n) (basis : List ℕ) :
    (p.withObjective P basis).Shaped := by
  refine ⟨rectangular_withObjective h.toRectangular hn, ?_, h.relations⟩
  rw [n_withObjective, ← hn]
  exact h.restrictions

end Shaped

end Program

end Simplex
