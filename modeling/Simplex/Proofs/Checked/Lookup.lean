import Simplex.Proofs.Change
import Simplex.Tableau.Display
/-! Lookups that fail where an index or a shape does not fit. The lookups of the search take a
    default for an item that is not there; the ones here check first that every item they look at is
    there. On a program whose parts fit together no check fails, so no default is ever taken. What
    the lookups find lies within the tableau, whatever the scalars are. -/

namespace Simplex

/-! ### What is found lies within the tableau -/

namespace Program
variable {K : Type} [Scalar K] {p : Program K} {nonbasic : List ℤ}

theorem mem_candidates {i j : ℕ} :
    j ∈ p.candidates nonbasic i ↔ j < p.n ∧ p.isUnit i j = true ∧ (j : ℤ) ∉ nonbasic := by
  rw [candidates, List.mem_filter, unitColumns, List.mem_filter, List.mem_range, Bool.not_eq_true',
    ← Bool.not_eq_true, List.contains_iff_mem, and_assoc]

/-- The basic variable of a row is one of its candidates. -/
theorem mem_candidates_of_basicVariable {i j : ℕ} (h : p.basicVariable nonbasic i = .ok j) :
    j ∈ p.candidates nonbasic i := by
  unfold basicVariable at h
  split at h
  · next hc =>
    cases h
    rw [hc]
    exact List.mem_cons_self
  · cases h

/-- The basic variables are found row by row. -/
theorem basicVariables_eq_ok {basis : List ℕ} (h : p.basicVariables nonbasic = .ok basis) :
    basis.length = p.m ∧ ∀ i (hi : i < basis.length), basis[i] ∈ p.candidates nonbasic i := by
  obtain ⟨hlength, hget⟩ := List.forall₂_iff_get.1 (forall₂_of_mapM_ok h)
  refine ⟨by simpa using hlength.symm, fun i hi => ?_⟩
  have hbasic := hget i (hlength ▸ hi) hi
  rw [List.get_eq_getElem, List.getElem_range] at hbasic
  exact mem_candidates_of_basicVariable hbasic

theorem basicVariables_lt {basis : List ℕ} (h : p.basicVariables nonbasic = .ok basis) :
    basis.length = p.m ∧ ∀ j ∈ basis, j < p.n := by
  obtain ⟨hlength, hmem⟩ := basicVariables_eq_ok h
  refine ⟨hlength, fun j hj => ?_⟩
  obtain ⟨i, hi, rfl⟩ := List.mem_iff_getElem.1 hj
  exact (mem_candidates.1 (hmem i hi)).1

theorem basicRow_lt {i j : ℕ} (h : p.basicRow j = .ok i) : i < p.m := by
  unfold basicRow at h
  split at h
  · next hfind =>
    cases h
    exact List.mem_range.1 (List.mem_of_find?_eq_some hfind)
  · cases h

theorem entering?_lt {e : ℕ} (h : p.entering? = some e) : e < p.n :=
  (List.findIdx?_eq_some_iff_getElem.1 h).1

theorem leavingRow?_lt {e r : ℕ} (h : p.leavingRow? e = some r) : r < p.m := by
  obtain ⟨⟨_, q⟩, hbest, rfl⟩ := Option.map_eq_some_iff.1 h
  refine List.foldlRecOn (motive := fun best => ∀ r q, best = some (r, q) → r < p.m)
    (List.range p.m) (p.betterRow e) (by simp) ?_ _ _ hbest
  intro best ih i hi r q hr
  have hi : i < p.m := List.mem_range.1 hi
  unfold betterRow at hr
  split at hr
  · exact ih r q hr
  · split_ifs at hr
    cases hr
    exact hi
  · split_ifs at hr
    · cases hr
      exact hi
    · exact ih r q hr

theorem move_exchange_lt {r e l : ℕ} (h : p.move nonbasic = .ok (.exchange r e l)) :
    r < p.m ∧ e < p.n := by
  unfold move at h
  split at h
  · cases h
  · next entering hentering =>
    split at h
    · cases h
    · next row hrow =>
      cases hleaving : p.leavingVariable nonbasic row with
      | error f =>
        rw [hleaving] at h
        cases h
      | ok leaving =>
        rw [hleaving] at h
        change (if nonbasic.contains (entering : ℤ) then .ok (.exchange row entering leaving)
          else .error .enteringBasic : Except BasisFault Move) = _ at h
        split_ifs at h
        cases h
        exact ⟨leavingRow?_lt hrow, entering?_lt hentering⟩

theorem replacement?_lt {structural i e : ℕ} (h : p.replacement? structural i = some e) :
    e < structural := by
  have hlt := (List.findIdx?_eq_some_iff_getElem.1 h).1
  rw [List.length_take] at hlt
  exact hlt.trans_le (Nat.min_le_left _ _)

/-- No constraint is lost when the constraints are read back. -/
theorem Shaped.length_constraints {K : Type} {p : Program K} (hp : p.Shaped) :
    p.constraints.length = p.m := by
  have hrhs := congrArg List.length (map_constraints hp.rows hp.relations).2.1
  rwa [List.length_map] at hrhs

end Program

/-! ### Checks -/

namespace Checked

/-- A condition without which an index or a shape does not fit. -/
def expect (c : Prop) [Decidable c] : Except Fault Unit :=
  if c then .ok () else .error .misaligned

section Lookup
variable {K : Type} [Scalar K] (p : Program K) (nonbasic : List ℤ)

/-- The columns of the matrix that are compared with the unit vector of row `i`. -/
def unitColumns (i : ℕ) : Except Fault (List ℕ) := do
  expect (i < p.m ∧ p.Rectangular)
  return p.unitColumns i

def candidates (i : ℕ) : Except Fault (List ℕ) := do
  return (← unitColumns p i).filter fun j => !nonbasic.contains (j : ℤ)

def basicVariable (i : ℕ) : Except Fault ℕ := do
  match ← candidates p nonbasic i with
  | j :: _ => return j
  | [] => throw (.basis .rowWithoutBasic)

def basicVariables : Except Fault (List ℕ) := (List.range p.m).mapM (basicVariable p nonbasic)

def leavingVariable (i : ℕ) : Except Fault ℕ := do
  match ← candidates p nonbasic i with
  | [j] => return j
  | [] => throw (.basis .noLeaving)
  | _ => throw (.basis .severalLeaving)

/-- Column `j` is read in all rows, and compared with the unit vectors of some of them. -/
def basicRow (j : ℕ) : Except Fault ℕ := do
  expect (j < p.n ∧ p.Rectangular)
  (p.basicRow j).mapError .basis

/-- The right-hand side of row `i`. -/
def value (i : ℕ) : Except Fault K := do
  expect (i < p.m)
  return p.value i

def positiveBasic? : List ℕ → Except Fault (Option ℕ)
  | [] => return none
  | j :: rest => do
    if nonbasic.contains (j : ℤ) then positiveBasic? rest
    else
      let i ← basicRow p j
      if Scalar.lt p.tolerance (← value p i) then return some j
      positiveBasic? rest

/-- The entering column is read in all rows, each with its right-hand side. -/
def leavingRow? (entering : ℕ) : Except Fault (Option ℕ) := do
  expect (entering < p.n ∧ p.Rectangular)
  return p.leavingRow? entering

def move : Except Fault Move := do
  match p.entering? with
  | none => return .stop (.optimal nonbasic)
  | some entering =>
    match ← leavingRow? p entering with
    | none => return .stop .unbounded
    | some row =>
      let leaving ← leavingVariable p nonbasic row
      if nonbasic.contains (entering : ℤ) then return .exchange row entering leaving
      else throw (.basis .enteringBasic)

/-- The value of a basic variable is read off the constraint of its row. -/
def solution : Except Fault (List K) := do
  let basis ← basicVariables p nonbasic
  expect (p.m ≤ p.constraints.length ∧ ∀ j ∈ basis, j < p.n)
  return Program.pointOf p.n basis p.rhs

end Lookup

/-- Every constraint of a tableau is written with its relation and its row. -/
def shown {K : Type} (p : Program K) : Except Fault Unit :=
  expect (p.m ≤ p.relations.length ∧ p.rows.length = p.m)

/-- The tableau with four places. -/
def decimalTableau (p : Program Float) : Except Fault String := do
  shown p
  (p.tableauText .decimals).mapError .argument

/-! ### No check fails -/

theorem expect_of {c : Prop} [Decidable c] (h : c) : expect c = .ok () := if_pos h

theorem shown_eq {K : Type} {p : Program K} (hp : p.Shaped) : shown p = .ok () :=
  expect_of ⟨hp.relations, hp.rows⟩

/-- A tableau with four places is always written. -/
theorem decimalTableau_eq {p : Program Float} (hp : p.Shaped) :
    decimalTableau p = .ok p.decimalTableau := by
  have hcells (xs : List Float) : xs.mapM CellStyle.decimals.cell = .ok (xs.map (fixedText 4)) :=
    List.mapM_pure
  have hrows : (p.tableauRows.mapM fun x => do
      return (← x.1.mapM CellStyle.decimals.cell, ← CellStyle.decimals.cell x.2)) =
      .ok (p.tableauRows.map fun x => (x.1.map (fixedText 4), fixedText 4 x.2)) := by
    simp only [hcells]
    exact List.mapM_pure
  obtain ⟨text, htext⟩ : ∃ text, p.tableauText .decimals = .ok text := by
    rw [Program.tableauText, hrows]
    exact ⟨_, rfl⟩
  rw [decimalTableau, shown_eq hp, Program.decimalTableau, htext]
  rfl

section Lookup
variable {K : Type} [Scalar K] {p : Program K} {nonbasic : List ℤ}

theorem candidates_eq (hp : p.Rectangular) {i : ℕ} (hi : i < p.m) :
    candidates p nonbasic i = .ok (p.candidates nonbasic i) := by
  rw [candidates, unitColumns, expect_of ⟨hi, hp⟩]
  rfl

theorem basicVariable_eq (hp : p.Rectangular) {i : ℕ} (hi : i < p.m) :
    basicVariable p nonbasic i = (p.basicVariable nonbasic i).mapError .basis := by
  rw [basicVariable, candidates_eq hp hi, Program.basicVariable]
  cases p.candidates nonbasic i <;> rfl

theorem leavingVariable_eq (hp : p.Rectangular) {i : ℕ} (hi : i < p.m) :
    leavingVariable p nonbasic i = (p.leavingVariable nonbasic i).mapError .basis := by
  rw [leavingVariable, candidates_eq hp hi, Program.leavingVariable]
  rcases p.candidates nonbasic i with _ | ⟨j, _ | ⟨j', rest⟩⟩ <;> rfl

theorem basicVariables_eq (hp : p.Rectangular) :
    basicVariables p nonbasic = (p.basicVariables nonbasic).mapError .basis :=
  mapM_mapError fun _ hi => basicVariable_eq hp (List.mem_range.1 hi)

theorem basicRow_eq (hp : p.Rectangular) {j : ℕ} (hj : j < p.n) :
    basicRow p j = (p.basicRow j).mapError .basis := by
  rw [basicRow, expect_of ⟨hj, hp⟩]
  rfl

theorem value_eq {i : ℕ} (hi : i < p.m) : value p i = .ok (p.value i) := by
  rw [value, expect_of hi]
  rfl

theorem leavingRow?_eq (hp : p.Rectangular) {e : ℕ} (he : e < p.n) :
    leavingRow? p e = .ok (p.leavingRow? e) := by
  rw [leavingRow?, expect_of ⟨he, hp⟩]
  rfl

theorem positiveBasic?_eq (hp : p.Rectangular) {js : List ℕ} (hjs : ∀ j ∈ js, j < p.n) :
    positiveBasic? p nonbasic js = (p.positiveBasic? nonbasic js).mapError .basis := by
  induction js with
  | nil => rfl
  | cons j js ih =>
    have hrest := ih fun k hk => hjs k (List.mem_cons_of_mem _ hk)
    rw [positiveBasic?, Program.positiveBasic?, basicRow_eq hp (hjs j List.mem_cons_self), hrest]
    split_ifs
    · rfl
    cases hrow : p.basicRow j with
    | error => rfl
    | ok i =>
      change Except.bind (value p i) _ = Except.mapError _ (ite _ _ _)
      rw [value_eq (Program.basicRow_lt hrow)]
      change ite _ _ _ = _
      split_ifs <;> rfl

theorem move_eq (hp : p.Rectangular) : move p nonbasic = (p.move nonbasic).mapError .basis := by
  rw [move, Program.move]
  cases he : p.entering? with
  | none => rfl
  | some e =>
    dsimp only
    rw [leavingRow?_eq hp (Program.entering?_lt he)]
    cases hr : p.leavingRow? e with
    | none => rfl
    | some r =>
      change Except.bind (leavingVariable p nonbasic r) _ = _
      rw [leavingVariable_eq hp (Program.leavingRow?_lt hr)]
      dsimp only
      cases p.leavingVariable nonbasic r with
      | error => rfl
      | ok l =>
        change ite _ _ _ = Except.mapError _ (ite _ _ _)
        split_ifs <;> rfl

theorem solution_eq (hp : p.Shaped) :
    solution p nonbasic = (p.solution nonbasic).mapError .basis := by
  rw [solution, Program.solution, basicVariables_eq hp.toRectangular]
  cases hbasis : p.basicVariables nonbasic with
  | error => rfl
  | ok basis =>
    change Except.bind (expect _) _ = _
    rw [expect_of ⟨hp.length_constraints.ge, (Program.basicVariables_lt hbasis).2⟩]
    rfl

end Lookup

end Checked

end Simplex
