import Simplex.Proofs.FailedAddition
/-! The order of additions. The variables of a draft in their order and its constraints in theirs
    can be added in any interleaving of the two, each with its coefficients in what is there
    already. Every addition leads from one stage to the next, where a stage is given by how many
    constraints and how many variables are there and not by how they came; so all interleavings
    end at the one program. -/

namespace Simplex

/-- After an operation that succeeds the others are performed on what it left. -/
theorem Operation.performAll_cons_of_ok {K : Type} [Scalar K] {limit : ℕ} {op : Operation K}
    {ops : List (Operation K)} {outcome : Option Outcome} {s s' : Session K}
    (h : op.perform limit s = .ok outcome s') :
    performAll limit (op :: ops) s = performAll limit ops s' := by
  rw [performAll]
  change EStateM.bind _ _ _ = _
  rw [EStateM.bind, h]

namespace Draft
variable {K : Type}

/-- The additions that are left when the first `i` constraints and the first `j` variables are
    there, in one of their interleavings. A variable comes with its coefficients in the constraints
    that are there, a constraint with its coefficients of the variables that are there. -/
inductive Interleaving [Scalar K] (d : Draft K) : ℕ → ℕ → List (Operation K) → Prop
  | done : Interleaving d d.constraints.length d.unknowns.length []
  | unknown {i j : ℕ} {c : K} {kind : Restriction} {rest : List (Operation K)} :
    d.unknowns[j]? = some (c, kind) →
      Interleaving d i (j + 1) rest →
      Interleaving d i j
        (.addVariable (.ok c) (.ok ((d.constraints.take i).map fun x => x.2.2.getD j 0))
          (.ok kind) :: rest)
  | constraint {i j : ℕ} {relation : Relation} {b : K} {row : List K} {rest : List (Operation K)} :
      d.constraints[i]? = some (relation, b, row) → Interleaving d (i + 1) j rest →
      Interleaving d i j (.addConstraint (.ok relation) (.ok b) (.ok (row.take j)) :: rest)

/-- All variables, whose columns are empty, and then all constraints. -/
def inOrder (d : Draft K) : List (Operation K) :=
  (d.unknowns.map fun (c, kind) => .addVariable (.ok c) (.ok []) (.ok kind)) ++
    d.constraints.map fun (relation, b, row) => .addConstraint (.ok relation) (.ok b) (.ok row)

/-- The program with the variables of a draft and then its constraints. -/
def addTo (d : Draft K) (p : Program K) : Program K :=
  d.constraints.foldl (fun p (relation, b, row) => Program.appendConstraint relation b row p)
    (d.unknowns.foldl (fun p (c, kind) => Program.appendVariable c [] kind p) p)

/-! ### Stages -/

/-- The program with the first `i` constraints and the first `j` variables. It is
    prepared only if it has none. -/
def stage (d : Draft K) (p : Program K) (i j : ℕ) : Program K :=
  { p with
    costs := (d.unknowns.take j).map Prod.fst
    restrictions := p.restrictions ++ (d.unknowns.take j).map Prod.snd
    relations := p.relations ++ (d.constraints.take i).map fun x => x.1
    rhs := (d.constraints.take i).map fun x => x.2.1
    rows := (d.constraints.take i).map fun x => x.2.2.take j
    standard := p.standard && (d.unknowns.take j).all (fun x => x.2 == .nonNegative) &&
      (d.constraints.take i).all fun x => x.1 == .equal
    simplex := p.simplex && i == 0 && j == 0 }

section Stages
variable {d : Draft K} {p : Program K} {i j : ℕ}

theorem n_stage : (d.stage p i j).n = min j d.unknowns.length := by simp [stage, Program.n]

theorem m_stage : (d.stage p i j).m = min i d.constraints.length := by simp [stage, Program.m]

/-- Nothing is added yet. -/
theorem stage_zero (hp : p.Rectangular) (hn : p.n = 0) (hm : p.m = 0) : d.stage p 0 0 = p := by
  have hcosts : p.costs = [] := List.length_eq_zero_iff.1 hn
  have hrhs : p.rhs = [] := List.length_eq_zero_iff.1 hm
  have hrows : p.rows = [] := List.length_eq_zero_iff.1 (hp.rows.trans hm)
  cases p
  cases hcosts
  cases hrhs
  cases hrows
  simp [stage]

/-- One more variable: its column is glued to the rows that are there. -/
theorem appendVariable_stage (hrows : ∀ x ∈ d.constraints, x.2.2.length = d.unknowns.length) {c : K}
    {kind : Restriction} (hj : d.unknowns[j]? = some (c, kind)) (zero : K) :
    (d.stage p i j).appendVariable c ((d.constraints.take i).map fun x => x.2.2.getD j zero) kind =
      d.stage p i (j + 1) := by
  have htake : d.unknowns.take (j + 1) = d.unknowns.take j ++ [(c, kind)] := by
    rw [List.take_add_one, hj]
    rfl
  have hglued : List.zipWith (fun row a => row ++ [a])
      ((d.constraints.take i).map fun x => x.2.2.take j)
      ((d.constraints.take i).map fun x => x.2.2.getD j zero) =
      (d.constraints.take i).map fun x => x.2.2.take (j + 1) := by
    rw [List.zipWith_map, List.zipWith_self]
    refine List.map_congr_left fun x hx => ?_
    have hlt : j < x.2.2.length := by
      rw [hrows x (List.mem_of_mem_take hx)]
      exact (List.getElem?_eq_some_iff.1 hj).1
    rw [List.take_add_one, List.getElem?_eq_getElem hlt, List.getD_eq_getElem _ _ hlt]
    rfl
  -- the same conditions on the flags, gathered in another order
  have hflags : ∀ a b c k : Bool, (a && b && c && k) = (a && (b && k) && c) := by decide
  have hsimplex : (j + 1 == 0) = false := rfl
  simp only [stage, Program.appendVariable, Program.lowerFlags, hglued, hflags, hsimplex, htake,
    List.map_append, List.map_cons, List.map_nil, List.append_assoc, List.all_append, List.all_cons,
    List.all_nil, Bool.and_true, Bool.and_false]

/-- One more constraint: its row is put under the rows that are there. -/
theorem appendConstraint_stage {relation : Relation} {b : K} {row : List K}
    (hi : d.constraints[i]? = some (relation, b, row)) :
    (d.stage p i j).appendConstraint relation b (row.take j) = d.stage p (i + 1) j := by
  have htake : d.constraints.take (i + 1) = d.constraints.take i ++ [(relation, b, row)] := by
    rw [List.take_add_one, hi]
    rfl
  simp [stage, Program.appendConstraint, Program.appendRow, Program.appendRelation,
    Program.lowerFlags, htake, Bool.and_assoc]

/-- The last stage is where the additions in order lead. -/
theorem addTo_eq_stage (hrows : ∀ x ∈ d.constraints, x.2.2.length = d.unknowns.length)
    (hp : p.Rectangular) (hn : p.n = 0) (hm : p.m = 0) :
    d.addTo p = d.stage p d.constraints.length d.unknowns.length := by
  have hunknowns : d.unknowns.foldl (fun p (c, kind) => Program.appendVariable c [] kind p)
      (d.stage p 0 0) =
      d.stage p 0 d.unknowns.length :=
    foldl_eq_stage (d.stage p 0) fun _ (c, _) hj => appendVariable_stage hrows hj c
  rw [stage_zero hp hn hm] at hunknowns
  rw [addTo, hunknowns]
  refine foldl_eq_stage (fun i => d.stage p i d.unknowns.length) fun i (relation, b, row) hi => ?_
  have hrow : row.take d.unknowns.length = row :=
    List.take_of_length_le (hrows _ (List.mem_of_getElem? hi)).le
  dsimp only
  rw [← appendConstraint_stage hi, hrow]

end Stages

/-! ### Interleavings -/

section Interleaving
variable [Scalar K] {d : Draft K} {i j : ℕ}

/-- In the order of the draft every row is complete when its constraint comes. -/
theorem interleaving_constraints (hrows : ∀ x ∈ d.constraints, x.2.2.length = d.unknowns.length)
    (hi : i ≤ d.constraints.length) :
    d.Interleaving i d.unknowns.length ((d.constraints.drop i).map fun (relation, b, row) =>
      .addConstraint (.ok relation) (.ok b) (.ok row)) := by
  -- from the last constraint back, as an interleaving is made of what is still to come
  induction hi using Nat.decreasingInduction with
  | self =>
    rw [List.drop_length]
    exact .done
  | of_succ i hi ih =>
    rw [List.drop_eq_getElem_cons hi, List.map_cons]
    have hget := List.getElem?_eq_getElem hi
    generalize d.constraints[i] = x at hget ⊢
    obtain ⟨relation, b, row⟩ := x
    have hrow : row.take d.unknowns.length = row :=
      List.take_of_length_le (hrows _ (List.mem_of_getElem? hget)).le
    have hnext := Interleaving.constraint hget ih
    rwa [hrow] at hnext

/-- The order of the draft is one of the interleavings. -/
theorem interleaving_inOrder (hrows : ∀ x ∈ d.constraints, x.2.2.length = d.unknowns.length) :
    d.Interleaving 0 0 d.inOrder := by
  have hunknowns : ∀ j, j ≤ d.unknowns.length → d.Interleaving 0 j
      (((d.unknowns.drop j).map fun (c, kind) => .addVariable (.ok c) (.ok []) (.ok kind)) ++
        d.constraints.map fun (relation, b, row) =>
          .addConstraint (.ok relation) (.ok b) (.ok row)) := by
    intro j hj
    induction hj using Nat.decreasingInduction with
    | self =>
      rw [List.drop_length]
      exact interleaving_constraints hrows (Nat.zero_le _)
    | of_succ j hj ih =>
      rw [List.drop_eq_getElem_cons hj, List.map_cons, List.cons_append]
      exact .unknown (List.getElem?_eq_getElem hj) ih
  exact hunknowns 0 (Nat.zero_le _)

/-- Every interleaving leads on to the last stage, and no addition in it fails. -/
theorem Interleaving.performAll_eq {ops : List (Operation K)} (h : d.Interleaving i j ops)
    (hrows : ∀ x ∈ d.constraints, x.2.2.length = d.unknowns.length) (limit : ℕ) (p : Program K)
    (s : Session K) :
    Operation.performAll limit ops { s with program := d.stage p i j } =
      .ok none { s with program := d.stage p d.constraints.length d.unknowns.length } := by
  -- each addition leads from one stage to the next
  induction h with
  | done => rfl
  | @unknown i j c kind rest hj _ ih =>
    have hlength : ((d.constraints.take i).map fun x => x.2.2.getD j 0).length =
        (d.stage p i j).m := by
      simp [m_stage]
    have hadded := Action.addVariable_ok (s := { s with program := d.stage p i j }) c kind hlength
    rw [appendVariable_stage hrows hj] at hadded
    exact (Operation.performAll_cons_of_ok (Operation.perform_of_ok rfl hadded)).trans ih
  | @constraint i j relation b row rest hi _ ih =>
    have hlength : (row.take j).length = (d.stage p i j).n := by
      rw [n_stage, List.length_take, hrows _ (List.mem_of_getElem? hi)]
    have hadded :=
      Action.addConstraint_ok (s := { s with program := d.stage p i j }) relation b hlength
    rw [appendConstraint_stage hi] at hadded
    exact (Operation.performAll_cons_of_ok (Operation.perform_of_ok rfl hadded)).trans ih

end Interleaving

/-- In whatever interleaving the variables and the constraints of a draft are added to a program
    that has none, its flags being as they may, no addition fails, and they end at the program with
    all variables and then all constraints. Adding them in this order is one of the interleavings,
    and it is how a draft becomes a program. -/
theorem performAll_interleaving [Scalar K] {d : Draft K}
    (hrows : ∀ x ∈ d.constraints, x.2.2.length = d.unknowns.length) {s : Session K}
    (hp : s.program.Rectangular) (hn : s.program.n = 0) (hm : s.program.m = 0) (limit : ℕ) :
    (∀ ops, d.Interleaving 0 0 ops →
      Operation.performAll limit ops s = .ok none { s with program := d.addTo s.program }) ∧
    d.Interleaving 0 0 d.inOrder ∧
    ∀ tolerance, d.program tolerance =
      { d.addTo (.empty d.objective tolerance) with constant := d.constant } := by
  refine ⟨fun ops hops => ?_, interleaving_inOrder hrows, fun _ => rfl⟩
  have hrun := hops.performAll_eq hrows limit s.program s
  rwa [stage_zero hp hn hm, ← addTo_eq_stage hrows hp hn hm] at hrun

/-- Two variables, of which one is free, and two constraints. -/
def twoByTwo : Draft ℚ where
  objective := .maximize
  unknowns := [(3, .nonNegative), (2, .unrestricted)]
  constraints := [(.lessEqual, 4, [1, 2]), (.equal, 5, [0, 1])]
  constant := 0

/-- The first constraint comes before there are variables, and then they alternate. -/
def alternating : List (Operation ℚ) :=
  [.addConstraint (.ok .lessEqual) (.ok 4) (.ok []),
    .addVariable (.ok 3) (.ok [1]) (.ok .nonNegative),
    .addConstraint (.ok .equal) (.ok 5) (.ok [0]),
    .addVariable (.ok 2) (.ok [2, 1]) (.ok .unrestricted)]

/-- A program that has no variables and no constraints yet and whose flags are set. -/
def flagged : Session ℚ :=
  Session.start { Program.empty Objective.maximize 0 with standard := true, simplex := true }

/-- The alternating additions end as those in order do, and the flags are lowered. -/
theorem performAll_interleaving_alternating : twoByTwo.Interleaving 0 0 alternating ∧
    Operation.performAll 0 alternating flagged = Operation.performAll 0 twoByTwo.inOrder flagged ∧
    (twoByTwo.addTo flagged.program).rows = [[1, 2], [0, 1]] ∧
    (twoByTwo.addTo flagged.program).standard = false ∧
    (twoByTwo.addTo flagged.program).simplex = false := by
  have hrows : ∀ x ∈ twoByTwo.constraints, x.2.2.length = twoByTwo.unknowns.length := by
    simp [twoByTwo]
  have hp : flagged.program.Rectangular := ⟨rfl, by simp [flagged, Session.start, Program.empty]⟩
  obtain ⟨hall, hinOrder, -⟩ := performAll_interleaving hrows hp rfl rfl 0
  have hrow₀ : twoByTwo.constraints[0]? = some (.lessEqual, 4, [1, 2]) := rfl
  have hrow₁ : twoByTwo.constraints[1]? = some (.equal, 5, [0, 1]) := rfl
  have hcolumn₀ : twoByTwo.unknowns[0]? = some (3, .nonNegative) := rfl
  have hcolumn₁ : twoByTwo.unknowns[1]? = some (2, .unrestricted) := rfl
  have halternating :=
    Interleaving.constraint hrow₀ (.unknown hcolumn₀ (.constraint hrow₁ (.unknown hcolumn₁ .done)))
  exact ⟨halternating, (hall _ halternating).trans (hall _ hinOrder).symm, rfl, rfl, rfl⟩

end Draft

end Simplex
