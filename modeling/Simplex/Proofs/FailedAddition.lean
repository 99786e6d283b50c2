import Simplex.Proofs.Addition
import Simplex.Proofs.History
import Simplex.Proofs.Shape
/-! Additions that fail. One that is refused for its words, its list or its length leaves everything
    as it was. The number of an addition is read last, and when it is not read, the flags are
    lowered already and the relation of a constraint is there already: it comes before the relations
    of the constraints that are added later, so these are read back with the wrong relations. -/

namespace Simplex

namespace Operation
variable {K : Type}

/-- A variable or a constraint is added. -/
def IsAddition : Operation K → Prop
  | .addVariable .. | .addConstraint .. => True
  | _ => False

/-- The addition fits the program, but its number is not read. -/
def LacksNumber : Operation K → Program K → Prop
  | .addVariable (.error _) (.ok column) (.ok _), p => column.length = p.m
  | .addConstraint (.ok _) (.error _) (.ok row), p => row.length = p.n
  | _, _ => False

/-- What the program is when the number of an addition comes to be read. -/
def begun : Operation K → Program K → Program K
  | .addVariable _ _ (.ok restriction), p => p.lowerFlags (restriction == .nonNegative)
  | .addConstraint (.ok relation) _ _, p => p.appendRelation relation
  | _, p => p

/-- The relation of an addition that comes to reading its right-hand side. -/
def entered : Operation K × Session K → Option Relation
  | (.addConstraint (.ok relation) _ (.ok row), s) =>
    if row.length = s.program.n then some relation else none
  | _ => none

/-! ### What is read back -/

/-- The relations that are there are those that were entered, and the right-hand sides and the
    rows are those of the constraints that were added, with the coefficients of later variables
    at the ends of the rows. -/
structure Records (s : Session K) (entries : List Relation) (added : List (Relation × K × List K)) :
    Prop where
  relations : s.program.relations = entries
  rhs : s.program.rhs = added.map fun x => x.2.1
  rows : List.Forall₂ (fun row x => x.2.2 <+: row) s.program.rows added
  sublist : (added.map fun x => x.1).Sublist entries

/-- What is there at first counts as added. -/
theorem records_constraints {s : Session K} (hp : s.program.Shaped) :
    Records s s.program.relations s.program.constraints := by
  obtain ⟨hrelations, hrhs, hrows⟩ := Program.map_constraints hp.rows hp.relations
  refine ⟨rfl, hrhs.symm, ?_, ?_⟩
  · rw [← hrows, List.forall₂_map_left_iff]
    exact List.forall₂_same.2 fun _ _ => List.prefix_refl _
  · rw [hrelations]
    exact List.take_sublist _ _

/-- The constraints that are read back. -/
theorem Records.constraints {s : Session K} {entries : List Relation}
    {added : List (Relation × K × List K)} (h : Records s entries added) :
    s.program.constraints.map (fun c => c.1) = entries.take added.length ∧
      s.program.constraints.map (fun c => c.2.1) = added.map (fun c => c.2.1) ∧
      List.Forall₂ (fun read c => c.2.2 <+: read.2.2) s.program.constraints added := by
  have hm : s.program.m = added.length := by rw [Program.m, h.rhs, List.length_map]
  have hle : s.program.m ≤ s.program.relations.length := by
    simpa [hm, h.relations] using h.sublist.length_le
  obtain ⟨hrelations, hrhs, hrows⟩ := Program.map_constraints (h.rows.length_eq.trans hm.symm) hle
  refine ⟨?_, hrhs.trans h.rhs, ?_⟩
  · rw [hrelations, h.relations, hm]
  · have h := h.rows
    rwa [← hrows, List.forall₂_map_left_iff] at h

variable [Scalar K]

/-! ### One addition -/

/-- The constraint that is added by an operation that succeeds. -/
def accepted (limit : ℕ) (x : Operation K × Session K) : Option (Relation × K × List K) :=
  match x.1, x.1.perform limit x.2 with
  | .addConstraint (.ok relation) (.ok value) (.ok row), .ok _ _ => some (relation, value, row)
  | _, _ => none

/-- How an addition ends. -/
inductive Ends (s : Session K) :
    Operation K → EStateM.Result Fault (Session K) (Option Outcome) → Prop
  | newVariable (c : K) {column : List K} (kind : Restriction) : column.length = s.program.m →
      Ends s (.addVariable (.ok c) (.ok column) (.ok kind))
        (.ok none { s with program := s.program.appendVariable c column kind })
  | newConstraint (r : Relation) (b : K) {row : List K} : row.length = s.program.n →
      Ends s (.addConstraint (.ok r) (.ok b) (.ok row))
        (.ok none { s with program := s.program.appendConstraint r b row })
  | variableLeft (f : ArgumentFault) {column : List K} (kind : Restriction) :
    column.length = s.program.m →
      Ends s (.addVariable (.error f) (.ok column) (.ok kind))
        (.error (.argument f) { s with program := s.program.lowerFlags (kind == .nonNegative) })
  | constraintLeft (r : Relation) (f : ArgumentFault) {row : List K} : row.length = s.program.n →
      Ends s (.addConstraint (.ok r) (.error f) (.ok row))
        (.error (.argument f) { s with program := s.program.appendRelation r })
  | refused {op : Operation K} (e : Fault) : ¬op.LacksNumber s.program → entered (op, s) = none →
      Ends s op (.error e s)

variable {s : Session K}

theorem perform_of_ok {limit : ℕ} {op : Operation K} {act : Action K Unit} {s' : Session K}
    (hop : op.perform limit = do act; return none) (h : act s = .ok () s') :
    op.perform limit s = .ok none s' := by
  rw [hop]
  change EStateM.bind _ _ _ = _
  rw [EStateM.bind, h]
  rfl

theorem perform_of_error {limit : ℕ} {op : Operation K} {act : Action K Unit} {e : Fault}
    {s' : Session K} (hop : op.perform limit = do act; return none) (h : act s = .error e s') :
    op.perform limit s = .error e s' := by
  rw [hop]
  change EStateM.bind _ _ _ = _
  rw [EStateM.bind, h]

theorem ends_addVariable (limit : ℕ) (coefficient : Except ArgumentFault K)
    (column : Except ArgumentFault (List K)) (restriction : Except ArgumentFault Restriction) :
    Ends s (.addVariable coefficient column restriction)
      ((Operation.addVariable coefficient column restriction).perform limit s) := by
  rcases restriction with f | kind
  · exact .refused _ (by simp [LacksNumber]) rfl
  rcases column with f | w
  · exact .refused _ (by simp [LacksNumber]) rfl
  by_cases hw : w.length = s.program.m
  · rcases coefficient with f | c
    · rw [perform_of_error rfl (Action.addVariable_unread f kind hw)]
      exact .variableLeft f kind hw
    · rw [perform_of_ok rfl (Action.addVariable_ok c kind hw)]
      exact .newVariable c kind hw
  · rw [perform_of_error rfl (Action.addVariable_misfit coefficient kind hw)]
    exact .refused _ (by cases coefficient <;> simp [LacksNumber, hw]) rfl

theorem ends_addConstraint (limit : ℕ) (relation : Except ArgumentFault Relation)
    (value : Except ArgumentFault K) (row : Except ArgumentFault (List K)) :
    Ends s (.addConstraint relation value row)
      ((Operation.addConstraint relation value row).perform limit s) := by
  rcases relation with f | r
  · exact .refused _ (by cases value <;> simp [LacksNumber]) rfl
  rcases row with f | w
  · exact .refused _ (by cases value <;> simp [LacksNumber]) rfl
  by_cases hw : w.length = s.program.n
  · rcases value with f | b
    · rw [perform_of_error rfl (Action.addConstraint_unread r f hw)]
      exact .constraintLeft r f hw
    · rw [perform_of_ok rfl (Action.addConstraint_ok r b hw)]
      exact .newConstraint r b hw
  · rw [perform_of_error rfl (Action.addConstraint_misfit r value hw)]
    exact .refused _ (by cases value <;> simp [LacksNumber, hw]) (by simp [entered, hw])

theorem IsAddition.ends {op : Operation K} (hop : op.IsAddition) (limit : ℕ) (s : Session K) :
    Ends s op (op.perform limit s) := by
  cases op with
  | addVariable coefficient column restriction =>
    exact ends_addVariable limit coefficient column restriction
  | addConstraint relation value row => exact ends_addConstraint limit relation value row
  | _ => cases hop

/-- What an addition leaves that fails. -/
theorem IsAddition.of_error {op : Operation K} (hop : op.IsAddition) {limit : ℕ} {e : Fault}
    {s' : Session K} (hfail : op.perform limit s = .error e s') :
    (op.LacksNumber s.program → s' = { s with program := op.begun s.program }) ∧
    (¬op.LacksNumber s.program → s' = s) := by
  have hends := hop.ends limit s
  rw [hfail] at hends
  cases hends with
  | variableLeft f kind hcolumn => exact ⟨fun _ => rfl, fun h => absurd hcolumn h⟩
  | constraintLeft r f hrow => exact ⟨fun _ => rfl, fun h => absurd hrow h⟩
  | refused e hread => exact ⟨fun h => absurd h hread, fun _ => rfl⟩

/-! ### Runs of additions -/

namespace Records
variable {entries : List Relation} {added : List (Relation × K × List K)}

theorem step (h : Records s entries added) {op : Operation K} (hop : op.IsAddition) (limit : ℕ) :
    Records ((op.perform limit).after s) (entries ++ (entered (op, s)).toList)
      (added ++ (accepted limit (op, s)).toList) := by
  have hends := hop.ends limit s
  simp only [Action.after, accepted]
  generalize op.perform limit s = result at hends ⊢
  -- one case for each way an addition can end
  cases hends with
  | newVariable c kind hcolumn =>
    change Records _ (entries ++ []) (added ++ [])
    -- every row gets one entry at its end, so what was added stays a prefix
    have hm : s.program.m = s.program.rows.length := by
      rw [Program.m, h.rhs, List.length_map, h.rows.length_eq]
    rw [List.append_nil, List.append_nil]
    exact ⟨h.relations, h.rhs, forall₂_zipWith_append h.rows (hcolumn.trans hm), h.sublist⟩
  | @newConstraint r b row hrow =>
    rw [entered, if_pos hrow]
    change Records _ (entries ++ [r]) (added ++ [(r, b, row)])
    refine ⟨congrArg (· ++ [r]) h.relations, ?_, ?_, ?_⟩
    · rw [List.map_append]
      exact congrArg (· ++ [b]) h.rhs
    · exact List.rel_append h.rows (.cons (List.prefix_refl row) .nil)
    · rw [List.map_append]
      exact h.sublist.append (List.Sublist.refl [r])
  | variableLeft f kind hcolumn =>
    change Records _ (entries ++ []) (added ++ [])
    rw [List.append_nil, List.append_nil]
    exact ⟨h.relations, h.rhs, h.rows, h.sublist⟩
  | constraintLeft r f hrow =>
    -- the relation was entered and no row followed
    rw [entered, if_pos hrow]
    change Records _ (entries ++ [r]) (added ++ [])
    rw [List.append_nil]
    exact ⟨congrArg (· ++ [r]) h.relations, h.rhs, h.rows,
      h.sublist.trans (List.sublist_append_left _ _)⟩
  | refused e hread hentered =>
    rw [hentered]
    dsimp only
    split
    · next hresult => cases hresult
    · change Records s (entries ++ []) (added ++ [])
      rwa [List.append_nil, List.append_nil]

end Records

/-- A history of additions. -/
theorem Records.run {limit : ℕ} {ops : List (Operation K)} (hops : ∀ op ∈ ops, op.IsAddition) :
    ∀ {s : Session K} {entries : List Relation} {added : List (Relation × K × List K)},
    Records s entries added →
      Records (Session.run limit ops s) (entries ++ (Session.trace limit ops s).filterMap entered)
        (added ++ (Session.trace limit ops s).filterMap (accepted limit)) := by
  induction ops with
  | nil =>
    intro s entries added h
    simpa [Session.run, Session.trace] using h
  | cons op ops ih =>
    intro s entries added h
    have hstep := ih (fun op' hop' => hops op' (List.mem_cons_of_mem _ hop'))
      (h.step (hops op List.mem_cons_self) limit)
    have hcons (β : Type) (f : Operation K × Session K → Option β) (xs : List β) :
        xs ++ (f (op, s)).toList ++
          (Session.trace limit ops ((op.perform limit).after s)).filterMap f =
          xs ++ (Session.trace limit (op :: ops) s).filterMap f := by
      rw [Session.trace, List.filterMap_cons]
      cases f (op, s) <;> simp
    rw [hcons, hcons] at hstep
    exact hstep

/-- With its right-hand side read, a constraint is entered just if it is added. -/
theorem IsAddition.entered_eq {op : Operation K} (hop : op.IsAddition) {limit : ℕ}
    (hread : op.ValuesRead limit s) :
    entered (op, s) = (accepted limit (op, s)).map fun c => c.1 := by
  have hends := hop.ends limit s
  simp only [accepted]
  generalize op.perform limit s = result at hends ⊢
  cases hends with
  | newVariable => rfl
  | newConstraint r b hrow => rw [entered, if_pos hrow]; rfl
  | variableLeft => rfl
  | constraintLeft r f hrow =>
    obtain ⟨b, hb⟩ := hread r _ rfl rfl hrow
    cases hb
  | refused e hnumber hentered =>
    rw [hentered]
    split
    · next hresult => cases hresult
    · rfl

end Operation

namespace Session
open Operation
variable {K : Type} [Scalar K]

/-- The constraints that a history of additions adds, in the order of the calls. -/
def added (limit : ℕ) (ops : List (Operation K)) (s : Session K) : List (Relation × K × List K) :=
  (trace limit ops s).filterMap (accepted limit)

/-- An addition that fails leaves the session as it was, unless it fits and only its number is not
    read; then the flags are lowered, and the relation of a constraint is kept. So of the
    constraints that are read back after any additions the right-hand sides and the rows are those
    of the additions that succeeded, but the relations are those of the additions that came to
    reading their right-hand sides. The two agree where all of these were read. -/
theorem additions_read_back (limit : ℕ) :
    (∀ (op : Operation K) (s s' : Session K) (e : Fault), op.IsAddition →
      op.perform limit s = .error e s' →
      (op.LacksNumber s.program → s' = { s with program := op.begun s.program }) ∧
      (¬op.LacksNumber s.program → s' = s)) ∧
    ∀ (ops : List (Operation K)) (s t : Session K), (∀ op ∈ ops, op.IsAddition) → s.program.Shaped →
      run limit ops s = t →
      let passed := s.program.constraints ++ added limit ops s
      t.program.constraints.map (fun c => c.2.1) = passed.map (fun c => c.2.1) ∧
      List.Forall₂ (fun read c => c.2.2 <+: read.2.2) t.program.constraints passed ∧
      t.program.constraints.map (fun c => c.1) =
        (s.program.relations ++ (trace limit ops s).filterMap entered).take passed.length ∧
      (s.program.relations.length = s.program.m →
        (∀ x ∈ trace limit ops s, x.1.ValuesRead limit x.2) →
        t.program.constraints.map (fun c => c.1) = passed.map fun c => c.1) := by
  refine ⟨fun op s s' e hop hfail => hop.of_error hfail, ?_⟩
  rintro ops s _ hops hp rfl
  obtain ⟨hrelations, hrhs, hrows⟩ := ((records_constraints hp).run hops).constraints
  refine ⟨hrhs, hrows, hrelations, fun hm hread => ?_⟩
  -- with a relation for each row nothing is cut off, and values that read enter what they add
  have hfirst : s.program.relations = s.program.constraints.map fun c => c.1 := by
    rw [(Program.map_constraints hp.rows hp.relations).1, List.take_of_length_le hm.le]
  have hentered : (trace limit ops s).filterMap entered = (added limit ops s).map fun c => c.1 := by
    rw [added, List.map_filterMap]
    exact List.filterMap_congr fun x hx => (hops _ (mem_of_mem_trace hx)).entered_eq (hread x hx)
  have hall : s.program.relations ++ (trace limit ops s).filterMap entered =
      (s.program.constraints ++ added limit ops s).map fun c => c.1 := by
    rw [List.map_append, ← hfirst, hentered]
  rw [hrelations, hall]
  exact List.take_of_length_le (by simp [added])

/-- A program with one variable. -/
def oneVariable : Session Float :=
  start (Program.appendVariable 1 [] .nonNegative (.empty .maximize 0))

/-- An upper bound whose right-hand side is not read, and an equation. -/
def bounds : List (Operation Float) :=
  [.addConstraint (.ok .lessEqual) (.error .malformed) (.ok [1]),
    .addConstraint (.ok .equal) (.ok 3) (.ok [1])]

/-- The equation is read back as an upper bound. -/
theorem additions_read_back_bounds : added 0 bounds oneVariable = [(.equal, 3, [1])] ∧
    (run 0 bounds oneVariable).program.constraints.map (fun c => c.2.1) = [3] ∧
    (run 0 bounds oneVariable).program.constraints.map (fun c => c.1) = [.lessEqual] := by
  have hops : ∀ op ∈ bounds, op.IsAddition := by simp [bounds, Operation.IsAddition]
  have hp : oneVariable.program.Shaped := (Program.shaped_empty _ _).appendVariable _ _ rfl
  obtain ⟨hrhs, -, hrelations, -⟩ := (additions_read_back 0).2 bounds oneVariable _ hops hp rfl
  exact ⟨rfl, hrhs, hrelations⟩

/-- A constraint that is not added changes the relations, and a variable that is not added lowers a
    flag; the relation of the constraint that is added next is not the one that is read back. -/
theorem additions_left_over :
    (∃ e s', (Operation.addConstraint (.ok .lessEqual) (.error .malformed) (.ok [1])).perform 0
      oneVariable = .error e s' ∧ s'.program.relations ≠ oneVariable.program.relations) ∧
    (∃ e s', (Operation.addVariable (.error .malformed) (.ok []) (.ok .nonNegative)).perform 0
      { oneVariable with
        program := { oneVariable.program with standard := true, simplex := true } } = .error e s' ∧
      s'.program.simplex = false) ∧
    (run 0 bounds oneVariable).program.constraints.map (fun c => c.1) ≠
      (added 0 bounds oneVariable).map fun c => c.1 := by
  refine ⟨⟨_, _, rfl, ?_⟩, ⟨_, _, rfl, rfl⟩, ?_⟩
  · change [Relation.lessEqual] ≠ []
    decide
  · change [Relation.lessEqual] ≠ [.equal]
    decide

end Session

end Simplex
