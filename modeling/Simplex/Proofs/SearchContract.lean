import Simplex.Proofs.Cycling.Termination
import Simplex.Proofs.Safety
/-! What a search promises from any feasible basis, whether or not the tableau comes from a
    first phase. Each of its positions is a tableau of the program with a feasible basis again
    and with no lesser constant, so an optimum that it reports is one of the program and a
    lack of a bound is one as well. Under a tolerance an optimum is one up to the tolerance
    for each unit of the point, and this needs no basis: pivots on elements that are not zero
    already keep the meaning of the tableau. -/

namespace Simplex

namespace Program

/-! ### Any step -/

/-- What the next step is, and why. -/
theorem move_eq_ok {p : Program ℚ} {nonbasic : List ℤ} {next : Move}
    (h : p.move nonbasic = .ok next) :
    (next = .stop (.optimal nonbasic) ∧ p.entering? = none) ∨
    (∃ e, next = .stop .unbounded ∧ p.entering? = some e ∧ p.leavingRow? e = none) ∨
    ∃ r e l, next = .exchange r e l ∧ p.entering? = some e ∧ p.leavingRow? e = some r := by
  cases he : p.entering? with
  | none =>
    simp only [move, he, Except.ok.injEq] at h
    exact .inl ⟨h.symm, rfl⟩
  | some e =>
    cases hr : p.leavingRow? e with
    | none =>
      simp only [move, he, hr, Except.ok.injEq] at h
      exact .inr (.inl ⟨e, h.symm, rfl, hr⟩)
    | some r =>
      refine .inr (.inr ?_)
      simp only [move, he, hr] at h
      cases hl : p.leavingVariable nonbasic r with
      | error f =>
        rw [hl] at h
        cases h
      | ok l =>
        rw [hl] at h
        by_cases hmem : nonbasic.contains (e : ℤ) = true
        · have hnext : (Except.ok (.exchange r e l) : Except BasisFault Move) = .ok next :=
            (if_pos hmem).symm.trans h
          cases hnext
          exact ⟨r, e, l, rfl, rfl, hr⟩
        · have hnext : (Except.error .enteringBasic : Except BasisFault Move) = .ok next :=
            (if_neg hmem).symm.trans h
          cases hnext

/-- An exchange is a pivot inside the tableau, on an element above the tolerance. -/
theorem of_move_exchange {p : Program ℚ} {nonbasic : List ℤ} {r e l : ℕ}
    (h : p.move nonbasic = .ok (.exchange r e l)) :
    r < p.m ∧ e < p.n ∧ p.tolerance < p.entry r e := by
  obtain ⟨hstop, _⟩ | ⟨e', hstop, _⟩ | ⟨r', e', l', hexchange, he, hr⟩ := move_eq_ok h
  · cases hstop
  · cases hstop
  · cases hexchange
    obtain ⟨q, hm, hq, _⟩ := leavingRow?_eq_some hr
    exact ⟨hm, (entering?_eq_some he).1, lt_entry_of_ratio? hq⟩

end Program

namespace Position
open Program
variable {x : Position}

/-! ### All positions of a search -/

/-- The constant never falls. -/
theorem Canonical.constant_le_after (hx : x.Canonical) (k : ℕ) :
    x.tableau.constant ≤ (x.after k).tableau.constant := by
  induction k with
  | zero => exact le_rfl
  | succ k ih =>
    cases hnext : (x.after k).next? with
    | none => rwa [Position.after, hnext]
    | some y =>
      obtain ⟨B, r, e, hstep⟩ := (hx.after k).exists_step hnext
      rw [Position.after, hnext]
      exact ih.trans (hstep.constant_le (hx.after k))

/-- Every position has a tableau of the program with a feasible basis. -/
theorem Canonical.reached_after (hx : x.Canonical) (k : ℕ) :
    Reached x.tableau (x.after k).tableau (x.after k).nonbasic :=
  ⟨hx.tableauOf_after k, (hx.after k).basis, fun _ _ => (hx.after k).nonneg⟩

end Position

namespace Action
open Program Position
variable {s s' : Session ℚ} {nonbasic : List ℤ} {x : Position}

/-- After `k` pivots the search goes on from position `k`. -/
theorem search_add (hx : x.Canonical) (hs : s.program = x.tableau) : ∀ k, x.Lasts k →
    ∃ s', s'.program = (x.after k).tableau ∧ ∀ limit,
      Action.search (k + limit) x.nonbasic s = Action.search limit (x.after k).nonbasic s'
  | 0, _ => ⟨s, hs, fun limit => by rw [Nat.zero_add, Position.after]⟩
  | k + 1, hlasts => by
    obtain ⟨s₁, hs₁, hsearch⟩ := search_add hx hs k fun i hi => hlasts i (hi.trans k.lt_succ_self)
    obtain ⟨B, r, e, hstep⟩ := hlasts.step hx k.lt_succ_self
    have he := hstep.enters
    obtain ⟨s₂, hs₂, hnext⟩ :=
      search_of_exchange (hs₁ ▸ hstep.move) (hs₁ ▸ he.row) (hs₁ ▸ he.column)
    refine ⟨s₂, ?_, fun limit => ?_⟩
    · rw [hs₂, hs₁, hstep.tableau]
    · rw [Nat.add_assoc, Nat.add_comm 1 limit, hsearch, hnext, hstep.nonbasic]

/-- A search that ends has stopped on one of its positions. -/
theorem search_eq_ok (hx : x.Canonical) (hs : s.program = x.tableau) {limit : ℕ} {o : Outcome}
    (h : Action.search limit x.nonbasic s = .ok o s') :
    ∃ k, s'.program = (x.after k).tableau ∧
      (x.after k).tableau.move (x.after k).nonbasic = .ok (.stop o) := by
  classical
  have hends : ∃ k, (x.after k).next? = none := by
    obtain ⟨k, _, hk⟩ := (search_ok_iff hx limit s hs).1 ⟨o, s', h⟩
    exact ⟨k, hk⟩
  let k := Nat.find hends
  have hlimit : k < limit := by
    obtain ⟨i, hi, hnone⟩ := (search_ok_iff hx limit s hs).1 ⟨o, s', h⟩
    exact (Nat.find_min' hends hnone).trans_lt hi
  obtain ⟨s₁, hs₁, hsearch⟩ := search_add hx hs k fun i hi => Nat.find_min hends hi
  obtain ⟨steps, rfl⟩ : ∃ steps, limit = k + (steps + 1) := ⟨limit - k - 1, by omega⟩
  rcases (hx.after k).next?_cases with ⟨_, o', hmove⟩ | ⟨y, _, _, _, hsome, _⟩
  · rw [hsearch, search_of_stop (hs₁ ▸ hmove)] at h
    cases h
    exact ⟨k, hs₁, hmove⟩
  · rw [Nat.find_spec hends] at hsome
    cases hsome

/-- The point of the set that comes back is the best solution of the program, with the
    constant for its objective. -/
theorem search_optimal (hx : x.Canonical) (hs : s.program = x.tableau) {limit : ℕ} {found : List ℤ}
    (h : Action.search limit x.nonbasic s = .ok (.optimal found) s') :
    ∃ y, s'.program.solution found = .ok y ∧ s.program.Solves (pointAt y) ∧
      s.program.NonNegative (pointAt y) ∧ s.program.objectiveAt (pointAt y) = s'.program.constant ∧
      ∀ z, s.program.Solves z → s.program.NonNegative z →
      s.program.objectiveAt z ≤ s'.program.constant := by
  obtain ⟨k, hs', hmove⟩ := search_eq_ok hx hs h
  have hk := hx.after k
  obtain ⟨B, hB⟩ := hk.basis
  obtain ⟨rfl, hcost⟩ := hB.stops_of_move hk.sharp hmove
  rw [hk.tolerance] at hcost
  rw [hs', hs]
  exact (hx.reached_after k).exists_optimum hx.tolerance hx.nonneg hcost

/-- Where no bound is found there is none. -/
theorem search_unbounded (hx : x.Canonical) (hs : s.program = x.tableau) {limit : ℕ}
    (h : Action.search limit x.nonbasic s = .ok .unbounded s') (K : ℚ) :
    ∃ z, s.program.Solves z ∧ s.program.NonNegative z ∧ K < s.program.objectiveAt z := by
  obtain ⟨k, _, hmove⟩ := search_eq_ok hx hs h
  have hk := hx.after k
  obtain ⟨B, hB⟩ := hk.basis
  rw [hs]
  exact (hx.reached_after k).exists_objectiveAt_gt hx.tolerance hx.nonneg
    (hB.stops_of_move hk.sharp hmove) K

/-- Under any tolerance the set that comes back leaves costs within the tolerance on a
    tableau of the program. -/
theorem search_tableauOf {found : List ℤ} (ht : 0 ≤ s.program.tolerance)
    (hp : s.program.Rectangular) :
    ∀ limit, Action.search limit nonbasic s = .ok (.optimal found) s' →
      TableauOf s.program s'.program ∧
      ∀ j < s'.program.n, s'.program.cost j ≤ s'.program.tolerance := by
  intro limit
  -- the rest of the search starts from the pivoted program
  induction limit generalizing s nonbasic with
  | zero =>
    intro h
    cases h
  | succ limit ih =>
    intro h
    cases hmove : s.program.move nonbasic with
    | error f =>
      rw [search_of_fault hmove] at h
      cases h
    | ok next =>
      cases next with
      | stop o =>
        rw [search_of_stop hmove] at h
        cases h
        obtain ⟨_, he⟩ | ⟨e, hstop, _⟩ | ⟨r, e, l, hexchange, _⟩ := move_eq_ok hmove
        · exact ⟨.refl hp, entering?_eq_none he⟩
        · cases hstop
        · cases hexchange
      | exchange r e l =>
        obtain ⟨hr, he, ha⟩ := of_move_exchange hmove
        obtain ⟨s₁, hs₁, hsearch⟩ := search_of_exchange hmove hr he
        have hpivot : TableauOf s.program s₁.program :=
          hs₁ ▸ (TableauOf.refl hp).pivot hr (ht.trans_lt ha).ne'
        rw [hsearch] at h
        obtain ⟨htableau, hcost⟩ := ih (hpivot.tolerance ▸ ht) hpivot.rectangular h
        exact ⟨hpivot.trans htableau, hcost⟩

/-- Costs within the tolerance bound the objective by the constant and the size of the point. -/
theorem objectiveAt_le_of_tableauOf {q p : Program ℚ} (h : TableauOf q p)
    (hc : ∀ j < p.n, p.cost j ≤ p.tolerance) {z : Point} (hz : q.Solves z) (hn : q.NonNegative z) :
    q.objectiveAt z ≤ p.constant + q.tolerance * ∑ j ∈ Finset.range q.n, z j := by
  have hsum : ∑ j ∈ Finset.range q.n, p.cost j * z j ≤ ∑ j ∈ Finset.range q.n,
      q.tolerance * z j := by
    refine Finset.sum_le_sum fun j hj => ?_
    have hj := Finset.mem_range.1 hj
    exact mul_le_mul_of_nonneg_right (h.tolerance ▸ hc j (h.n ▸ hj)) (hn j hj)
  rw [← h.objectiveAt z hz, Program.objectiveAt, h.n, Finset.mul_sum]
  linarith

/-- What a search promises. The columns outside `nonbasic` are a feasible canonical basis of the
    tableau. Without tolerance every number of pivots leads to the search of a tableau that says the
    same, with a feasible canonical basis and no lesser constant. A set that comes back has a point
    that is the best solution of the program, with the constant for its objective, and where the
    search finds no bound there is none. Whatever the tolerance, the objective of a solution is at
    most the constant and the tolerance for each unit of it. -/
theorem solveFrom_contract {s : Session ℚ} {nonbasic : List ℤ} {B : ℕ → ℕ}
    (hprepared : s.program.simplex = true) (hp : s.program.Rectangular)
    (hB : s.program.Basis nonbasic B) (hb : ∀ i < s.program.m, 0 ≤ s.program.value i)
    (ht : 0 ≤ s.program.tolerance) :
    (s.program.tolerance = 0 →
      (∀ k, (s.position nonbasic).Lasts k →
        ∃ s', s'.program = ((s.position nonbasic).after k).tableau ∧
        ∀ limit, Action.solveFrom (k + limit) nonbasic s =
          Action.search limit ((s.position nonbasic).after k).nonbasic s') ∧
      (∀ k, ((s.position nonbasic).after k).Canonical ∧
        TableauOf s.program ((s.position nonbasic).after k).tableau ∧
        s.program.constant ≤ ((s.position nonbasic).after k).tableau.constant) ∧
      (∀ limit found s', Action.solveFrom limit nonbasic s = .ok (.optimal found) s' →
        ∃ x, s'.program.solution found = .ok x ∧ s.program.Solves (pointAt x) ∧
          s.program.NonNegative (pointAt x) ∧
          s.program.objectiveAt (pointAt x) = s'.program.constant ∧
          ∀ y, s.program.Solves y → s.program.NonNegative y →
            s.program.objectiveAt y ≤ s'.program.constant) ∧
      ∀ limit s', Action.solveFrom limit nonbasic s = .ok .unbounded s' →
        ∀ K, ∃ x, s.program.Solves x ∧ s.program.NonNegative x ∧ K < s.program.objectiveAt x) ∧
    ∀ limit found s', Action.solveFrom limit nonbasic s = .ok (.optimal found) s' →
      ∀ x, s.program.Solves x → s.program.NonNegative x →
        s.program.objectiveAt x ≤
          s'.program.constant + s.program.tolerance * ∑ j ∈ Finset.range s.program.n, x j := by
  simp only [solveFrom_eq hprepared]
  refine ⟨?_, ?_⟩
  · intro h0
    have hstart : Position.Canonical ⟨s.program, nonbasic⟩ := ⟨hp, h0, ⟨B, hB⟩, hb⟩
    have hx : (s.position nonbasic).Canonical := hstart.ofList
    refine ⟨fun k hlasts => search_add hx rfl k hlasts, ?_, ?_, ?_⟩
    · exact fun k => ⟨hx.after k, hx.tableauOf_after k, hx.constant_le_after k⟩
    · exact fun limit found s' h => search_optimal hx rfl h
    · exact fun limit s' h K => search_unbounded hx rfl h K
  · intro limit found s' h x hx hn
    obtain ⟨htableau, hcost⟩ := search_tableauOf ht hp limit h
    exact objectiveAt_le_of_tableauOf htableau hcost hx hn

end Action

namespace Program

/-- Two rows with their slack variables for a basis. The first cost is positive, and under a
    tolerance of a half it does not count. -/
def slackRows (tolerance : ℚ) : Program ℚ :=
  { objective := .maximize
    costs := [1 / 4, 3, 0, 0]
    constant := 0
    restrictions := List.replicate 4 .nonNegative
    relations := [.equal, .equal]
    rhs := [4, 6]
    rows := [[1, 1, 1, 0], [0, 3, 0, 1]]
    standard := true
    simplex := true
    tolerance }

theorem rectangular_slackRows (tolerance : ℚ) : (slackRows tolerance).Rectangular :=
  of_decide_eq_true rfl

theorem basis_slackRows (tolerance : ℚ) : (slackRows tolerance).Basis [0, 1] (· + 2) := by
  have hzero : (slackRows 0).Basis [0, 1] (· + 2) := by
    refine ⟨?_, ?_, ?_, ?_⟩
    all_goals decide
  exact ⟨hzero.lt, hzero.unit, hzero.cost, hzero.mem_iff⟩

theorem value_slackRows (tolerance : ℚ) :
    ∀ i < (slackRows tolerance).m, 0 ≤ (slackRows tolerance).value i := by
  have hzero : ∀ i < (slackRows 0).m, 0 ≤ (slackRows 0).value i := by decide
  exact hzero

end Program

namespace Action
open Program

/-- Two pivots lead to the optimum, and one to the set that a half in the costs leaves open. -/
theorem solveFrom_contract_slackRows :
    (∃ s', Action.solveFrom 9 [0, 1] (Session.start (slackRows 0)) = .ok (.optimal [2, 3]) s' ∧
      ∃ x, s'.program.solution [2, 3] = .ok x ∧ (slackRows 0).Solves (pointAt x) ∧
        (slackRows 0).NonNegative (pointAt x) ∧
        (slackRows 0).objectiveAt (pointAt x) = s'.program.constant ∧
        ∀ y, (slackRows 0).Solves y → (slackRows 0).NonNegative y →
          (slackRows 0).objectiveAt y ≤ s'.program.constant) ∧
    ∃ s', Action.solveFrom 9 [0, 1] (Session.start (slackRows (1 / 2))) = .ok (.optimal [0, 3]) s' ∧
      ∀ x, (slackRows (1 / 2)).Solves x → (slackRows (1 / 2)).NonNegative x →
        (slackRows (1 / 2)).objectiveAt x ≤ s'.program.constant + 1 / 2 * ∑ j ∈ Finset.range 4,
        x j := by
  have hexact : result? (Action.solveFrom 9 [0, 1]) (Session.start (slackRows 0)) =
      some (.optimal [2, 3]) := by decide +kernel
  have hrough : result? (Action.solveFrom 9 [0, 1]) (Session.start (slackRows (1 / 2))) =
      some (.optimal [0, 3]) := by decide +kernel
  obtain ⟨s₁, hexact⟩ := exists_of_result? hexact
  obtain ⟨s₂, hrough⟩ := exists_of_result? hrough
  have contract := fun t (ht : 0 ≤ t) => solveFrom_contract (s := Session.start (slackRows t)) rfl
    (rectangular_slackRows t) (basis_slackRows t) (value_slackRows t) ht
  exact ⟨⟨s₁, hexact, ((contract 0 le_rfl).1 rfl).2.2.1 9 _ s₁ hexact⟩,
    s₂, hrough, (contract (1 / 2) (by decide +kernel)).2 9 _ s₂ hrough⟩

end Action

end Simplex
