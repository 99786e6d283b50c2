import Simplex.Proofs.Rational
import Simplex.Tableau.Search
/-! Runs of actions on an exact program. A run keeps the promises that are made of it if it ends
    as promised or uses up its steps, and if on the way it has pivoted on elements above the
    tolerance only. One rule for each way of putting actions together carries the promise from
    the parts to the whole. -/

namespace Simplex

/-- A pivot on an element whose magnitude is above `t`, which is not reported as small. Other
    events are no pivots. -/
def Event.Above (t : ℚ) : Event ℚ → Prop
  | .pivoted element small _ _ => t < |element| ∧ small = false
  | _ => True

/-- From `s` to `s'` there were only pivots on elements above `t`. -/
def Session.PivotsAbove (t : ℚ) (s s' : Session ℚ) : Prop :=
  ∃ events, s'.journal = events ++ s.journal ∧ ∀ e ∈ events, e.Above t

namespace Session
variable {t : ℚ} {s s' s'' : Session ℚ}

theorem PivotsAbove.refl : PivotsAbove t s s := ⟨[], rfl, fun _ he => absurd he List.not_mem_nil⟩

theorem PivotsAbove.trans (h : PivotsAbove t s s') (h' : PivotsAbove t s' s'') :
    PivotsAbove t s s'' := by
  obtain ⟨first, hfirst, habove⟩ := h
  obtain ⟨later, hlater, habove'⟩ := h'
  refine ⟨later ++ first, by rw [hlater, hfirst, List.append_assoc], ?_⟩
  intro e he
  rcases List.mem_append.1 he with he | he
  · exact habove' e he
  · exact habove e he

end Session

@[simp] theorem indexBelow?_natCast {n k : ℕ} (hk : k < n) : indexBelow? n (k : ℤ) = some k := by
  simp [indexBelow?, hk]

theorem indexBelow?_eq_some {bound k : ℕ} {i : ℤ} (h : indexBelow? bound i = some k) :
    k < bound ∧ i = k := by
  unfold indexBelow? at h
  split_ifs at h with hi
  cases h
  omega

theorem indexBelow?_eq_none {bound : ℕ} {i : ℤ} (h : indexBelow? bound i = none) :
    ¬(0 ≤ i ∧ i < bound) := by
  unfold indexBelow? at h
  split_ifs at h with hi
  exact hi

namespace Action

section Pivot
variable {K : Type} [Scalar K]

/-- What a pivot inside the tableau does. -/
theorem pivot_eq {s : Session K} {r c : ℕ} (hr : r < s.program.m) (hc : c < s.program.n) :
    Action.pivot (r : ℤ) (c : ℤ) s = .ok () { s with
      program := s.program.pivot r c
      journal := .pivoted (s.program.entry r c)
        (Scalar.lt (Scalar.abs (s.program.entry r c)) s.program.tolerance) r c :: s.journal } := by
  simp only [Action.pivot, bind, EStateM.bind, program, indexBelow?_natCast hr,
    indexBelow?_natCast hc, note, setProgram]

/-- A pivot either is inside the tableau or fails before anything is changed. -/
theorem pivot_cases (s : Session K) (row column : ℤ) :
    (∃ r < s.program.m, ∃ c < s.program.n, row = r ∧ column = c) ∨
    (¬(0 ≤ row ∧ row < s.program.m) ∧
      Action.pivot row column s = .error (.size (.noConstraint row s.program.m)) s) ∨
    (¬(0 ≤ column ∧ column < s.program.n) ∧
      Action.pivot row column s = .error (.size (.noVariable column s.program.n)) s) := by
  cases hr : indexBelow? s.program.m row with
  | none =>
    refine .inr (.inl ⟨indexBelow?_eq_none hr, ?_⟩)
    simp only [Action.pivot, bind, EStateM.bind, program, hr]
    rfl
  | some r =>
    cases hc : indexBelow? s.program.n column with
    | none =>
      refine .inr (.inr ⟨indexBelow?_eq_none hc, ?_⟩)
      simp only [Action.pivot, bind, EStateM.bind, program, hr, hc]
      rfl
    | some c =>
      obtain ⟨hrm, rfl⟩ := indexBelow?_eq_some hr
      obtain ⟨hcn, rfl⟩ := indexBelow?_eq_some hc
      exact .inl ⟨r, hrm, c, hcn, rfl, rfl⟩

end Pivot

variable {α β : Type} {t : ℚ} {s : Session ℚ}

/-- The action ends as `Q` says or uses up its steps, and pivots on elements above `t` only. -/
def Runs (t : ℚ) (act : Action ℚ α) (s : Session ℚ) (Q : α → Session ℚ → Prop) : Prop :=
  match act s with
  | .ok a s' => s.PivotsAbove t s' ∧ Q a s'
  | .error e s' => e = .outOfSteps ∧ s.PivotsAbove t s'

/-- What an action gives back, if it does not fail. -/
def result? (act : Action ℚ α) (s : Session ℚ) : Option α :=
  match act s with
  | .ok a _ => some a
  | .error _ _ => none

theorem eq_ok_of_result? {act : Action ℚ α} {a : α} (h : result? act s = some a) :
    act s = .ok a (act.after s) := by
  unfold result? at h
  unfold Action.after
  cases hact : act s with
  | error e s' =>
    rw [hact] at h
    cases h
  | ok b s' =>
    rw [hact] at h
    cases h
    rfl

theorem exists_of_result? {act : Action ℚ α} {a : α} (h : result? act s = some a) :
    ∃ s', act s = .ok a s' :=
  ⟨_, eq_ok_of_result? h⟩

/-- On its way from `s`, `act` comes to `target` in the session `s'`. -/
inductive ComesTo {γ : Type} (target : Action ℚ γ) (s' : Session ℚ) :
    {α : Type} → Action ℚ α → Session ℚ → Prop
  | here : ComesTo target s' target s'
  | first {α β : Type} {act : Action ℚ α} {f : α → Action ℚ β} {s : Session ℚ} :
      ComesTo target s' act s → ComesTo target s' (act >>= f) s
  | later {α β : Type} {act : Action ℚ α} {f : α → Action ℚ β} {s s₁ : Session ℚ} {a : α} :
      act s = .ok a s₁ → ComesTo target s' (f a) s₁ → ComesTo target s' (act >>= f) s

/-- A failure on the way is not made good. -/
theorem ComesTo.error {γ : Type} {target : Action ℚ γ} {act : Action ℚ α} {s' s'' : Session ℚ}
    {e : Fault} (h : ComesTo target s' act s) (hfail : target s' = .error e s'') :
    act s = .error e s'' := by
  induction h with
  | here => exact hfail
  | first _ ih => simp only [bind, EStateM.bind, ih]
  | later hact _ ih => simp only [bind, EStateM.bind, hact, ih]

namespace Runs
variable {act : Action ℚ α} {f : α → Action ℚ β} {Q : α → Session ℚ → Prop}
    {R : β → Session ℚ → Prop}

theorem pure {a : α} (h : Q a s) : Runs t (pure a) s Q := ⟨.refl, h⟩

theorem outOfSteps : Runs t (throw .outOfSteps) s Q := ⟨rfl, .refl⟩

theorem bind (h : Runs t act s Q) (hf : ∀ a s', Q a s' → Runs t (f a) s' R) :
    Runs t (act >>= f) s R := by
  change match EStateM.bind act f s with
    | .ok a s' => _
    | .error e s' => _
  unfold Runs at h
  unfold EStateM.bind
  cases hact : act s with
  | error e s' => rwa [hact] at h
  | ok a s' =>
    rw [hact] at h
    have hrest := hf a s' h.2
    unfold Runs at hrest
    dsimp only
    cases hfa : f a s' with
    | error e s'' =>
      rw [hfa] at hrest
      exact ⟨hrest.1, h.1.trans hrest.2⟩
    | ok b s'' =>
      rw [hfa] at hrest
      exact ⟨h.1.trans hrest.1, hrest.2⟩

theorem mono {Q' : α → Session ℚ → Prop} (h : Runs t act s Q) (hQ : ∀ a s', Q a s' → Q' a s') :
    Runs t act s Q' := by
  unfold Runs at h ⊢
  cases hact : act s with
  | error e s' => rwa [hact] at h
  | ok a s' =>
    rw [hact] at h
    exact ⟨h.1, hQ a s' h.2⟩

/-- What a run that came to its end has brought about. -/
theorem of_ok {a : α} {s' : Session ℚ} (h : Runs t act s Q) (hact : act s = .ok a s') : Q a s' := by
  unfold Runs at h
  rw [hact] at h
  exact h.2

/-- A run that does not end as promised has used up its steps. -/
theorem of_error {e : Fault} {s' : Session ℚ} (h : Runs t act s Q) (hact : act s = .error e s') :
    e = .outOfSteps := by
  unfold Runs at h
  rw [hact] at h
  exact h.1

theorem pivotsAbove (h : Runs t act s Q) : s.PivotsAbove t (act.after s) := by
  unfold Runs at h
  unfold Action.after
  cases hact : act s with
  | error e s' =>
    rw [hact] at h
    exact h.2
  | ok a s' =>
    rw [hact] at h
    exact h.1

/-! ### Single actions -/

theorem program {f' : Program ℚ → Action ℚ β} (h : Runs t (f' s.program) s R) :
    Runs t (Action.program >>= f') s R := h

theorem setProgram {p : Program ℚ} {f' : Unit → Action ℚ β}
    (h : Runs t (f' ()) { s with program := p } R) :
    Runs t (Action.setProgram p >>= f') s R := h

theorem change {g : Program ℚ → Program ℚ} {f' : Unit → Action ℚ β}
    (h : Runs t (f' ()) { s with program := g s.program } R) :
    Runs t (Action.change g >>= f') s R := h

theorem note {e : Event ℚ} (he : e.Above t) {f' : Unit → Action ℚ β}
    (h : Runs t (f' ()) { s with journal := e :: s.journal } R) :
    Runs t (Action.note e >>= f') s R := by
  refine bind (Q := fun _ s' => s' = { s with journal := e :: s.journal })
    ⟨⟨[e], rfl, fun e' he' => ?_⟩, rfl⟩ ?_
  · rw [List.mem_singleton.1 he']
    exact he
  · rintro ⟨⟩ _ rfl
    exact h

theorem basis {γ : Type} {a : γ} {fact : Except BasisFault γ} (hfact : fact = .ok a)
    {f' : γ → Action ℚ β} (h : Runs t (f' a) s R) : Runs t (Action.basis fact >>= f') s R := by
  rw [hfact]
  exact h

/-- A pivot inside the tableau, on an element above the tolerance. -/
theorem pivot {r c : ℕ} (hr : r < s.program.m) (hc : c < s.program.n)
    (ht : s.program.tolerance = t) (ha : t < |s.program.entry r c|) :
    Runs t (Action.pivot r c) s fun _ s' => s'.program = s.program.pivot r c := by
  have hsmall : Scalar.lt (Scalar.abs (s.program.entry r c)) s.program.tolerance = false := by
    rw [Scalar.lt_rat, Scalar.abs_rat, ht, decide_eq_false (not_lt.2 ha.le)]
  rw [Runs, pivot_eq hr hc, hsmall]
  refine ⟨⟨[.pivoted (s.program.entry r c) false r c], rfl, ?_⟩, rfl⟩
  intro e he
  rw [List.mem_singleton.1 he]
  exact ⟨ha, rfl⟩

/-- A search keeps what every exchange keeps. It stops where the next step is to stop. -/
theorem search {I : Program ℚ → List ℤ → Prop}
    (step : ∀ p nonbasic, I p nonbasic → p.tolerance = t ∧
      ((∃ o, p.move nonbasic = .ok (.stop o)) ∨
        ∃ r e l, p.move nonbasic = .ok (.exchange r e l) ∧ r < p.m ∧ e < p.n ∧ t < |p.entry r e| ∧
          I (p.pivot r e) (IndexSet.exchange e l nonbasic))) :
    ∀ (limit : ℕ) (nonbasic : List ℤ) (s : Session ℚ), I s.program nonbasic →
      Runs t (Action.search limit nonbasic) s fun o s' =>
        ∃ last, I s'.program last ∧ s'.program.move last = .ok (.stop o)
  | 0, _, _, _ => outOfSteps
  | limit + 1, nonbasic, s, hI => by
    -- the next move ends the search or leads to a tableau that is kept in the same way
    obtain ⟨ht, ⟨o, hstop⟩ | ⟨r, e, l, hmove, hr, he, ha, hnext⟩⟩ := step _ _ hI
    · exact program (basis hstop (pure ⟨nonbasic, hI, hstop⟩))
    · refine program (basis hmove ?_)
      refine bind (pivot hr he ht ha) fun _ s' hs' => ?_
      refine program (note ?_ ?_)
      · trivial
      · exact search step limit _ _ (hs' ▸ hnext)

/-- A search of a prepared program takes its nonbasic variables as a set. -/
theorem solveFrom {limit : ℕ} {nonbasic : List ℤ} {R' : Outcome → Session ℚ → Prop}
    (hs : s.program.simplex = true)
    (h : Runs t (Action.search limit (IndexSet.ofList nonbasic)) s R') :
    Runs t (Action.solveFrom limit nonbasic) s R' := by
  refine program ?_
  rw [hs]
  exact h

end Runs

end Action

end Simplex
