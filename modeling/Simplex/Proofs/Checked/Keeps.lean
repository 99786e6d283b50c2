import Simplex.Proofs.Checked.Action
/-! An action beside its checked version. The two do the same, step by step, as long as no
    check fails; and on the way the program keeps an invariant, whether the action comes to
    its end or fails. One rule for each way of putting actions together carries this from
    the parts to the whole. -/

namespace Simplex

/-- `I` holds of the program under work and of every snapshot. -/
def Session.Everywhere {K : Type} (I : Program K → Prop) (s : Session K) : Prop :=
  I s.program ∧ ∀ x ∈ s.snapshots, I x.2

theorem Session.everywhere_start {K : Type} {I : Program K → Prop} {p : Program K} (h : I p) :
    (start p).Everywhere I := ⟨h, by simp [start]⟩

namespace Checked
variable {K : Type} {α β γ : Type} {I : Program K → Prop} {E : Fault → Prop} {s : Session K}

/-- The checked action does what the action does. `I` holds wherever the action stops; in the end
    `Q` holds, and a failure is one of `E`. -/
def Keeps (I : Program K → Prop) (E : Fault → Prop) (checked act : Action K α) (s : Session K)
    (Q : α → Session K → Prop) : Prop :=
  checked s = act s ∧
    match act s with
    | .ok a s' => s'.Everywhere I ∧ Q a s'
    | .error e s' => s'.Everywhere I ∧ E e

/-- A check that does not fail does nothing. -/
theorem require_ok {cond : Program K → Prop} [DecidablePred cond] (hc : cond s.program) :
    require cond s = .ok () s := by
  change lookup (expect (cond s.program)) s = _
  rw [expect_of hc]
  rfl

theorem require_bind {cond : Program K → Prop} [DecidablePred cond] {c : Unit → Action K β}
    (hc : cond s.program) : (require cond >>= c) s = c () s := by
  change EStateM.bind (require cond) c s = _
  rw [EStateM.bind, require_ok hc]

namespace Keeps
variable {c act : Action K α} {c' f : α → Action K β} {Q : α → Session K → Prop}
    {R : β → Session K → Prop}

theorem intro (heq : c s = act s) (hok : ∀ a s', act s = .ok a s' → s'.Everywhere I ∧ Q a s')
    (herror : ∀ e s', act s = .error e s' → s'.Everywhere I ∧ E e) : Keeps I E c act s Q := by
  refine ⟨heq, ?_⟩
  cases hact : act s with
  | ok a s' => exact hok a s' hact
  | error e s' => exact herror e s' hact

theorem of_ok (h : Keeps I E c act s Q) {a : α} {s' : Session K} (hact : act s = .ok a s') :
    s'.Everywhere I ∧ Q a s' := by
  have h := h.2
  rwa [hact] at h

theorem of_error (h : Keeps I E c act s Q) {e : Fault} {s' : Session K}
    (hact : act s = .error e s') :
    s'.Everywhere I ∧ E e := by
  have h := h.2
  rwa [hact] at h

theorem pure {a : α} (hI : s.Everywhere I) (h : Q a s) : Keeps I E (pure a) (pure a) s Q :=
  ⟨rfl, hI, h⟩

theorem throw {e : Fault} (hI : s.Everywhere I) (he : E e) : Keeps I E (throw e) (throw e) s Q :=
  ⟨rfl, hI, he⟩

theorem bind (h : Keeps I E c act s Q)
    (hf : ∀ a s', s'.Everywhere I → Q a s' → Keeps I E (c' a) (f a) s' R) :
    Keeps I E (c >>= c') (act >>= f) s R := by
  change EStateM.bind c c' s = EStateM.bind act f s ∧ match EStateM.bind act f s with
    | .ok b s' => _
    | .error e s' => _
  unfold EStateM.bind
  rw [h.1]
  cases hact : act s with
  | error e s' => exact ⟨rfl, h.of_error hact⟩
  | ok a s' =>
    obtain ⟨hI', hQ⟩ := h.of_ok hact
    exact hf a s' hI' hQ

theorem mono {Q' : α → Session K → Prop} {E' : Fault → Prop} (h : Keeps I E c act s Q)
    (hQ : ∀ a s', Q a s' → Q' a s') (hE : ∀ e, E e → E' e) : Keeps I E' c act s Q' :=
  intro h.1 (fun a s' hact => (h.of_ok hact).imp_right (hQ a s')) fun e _ hact =>
    (h.of_error hact).imp_right (hE e)

/-- What an action has given is what it gives. -/
theorem result (h : Keeps I E c act s Q) : Keeps I E c act s fun a s' => act s = .ok a s' :=
  intro h.1 (fun _ _ hact => ⟨(h.of_ok hact).1, hact⟩) fun _ _ hact => h.of_error hact

/-! ### Single actions -/

theorem program {c' f : Program K → Action K β} (h : Keeps I E (c' s.program) (f s.program) s R) :
    Keeps I E (Action.program >>= c') (Action.program >>= f) s R := h

theorem setProgram {p : Program K} {c' f : Unit → Action K β}
    (h : Keeps I E (c' ()) (f ()) { s with program := p } R) :
    Keeps I E (Action.setProgram p >>= c') (Action.setProgram p >>= f) s R := h

theorem change {g : Program K → Program K} {c' f : Unit → Action K β}
    (h : Keeps I E (c' ()) (f ()) { s with program := g s.program } R) :
    Keeps I E (Action.change g >>= c') (Action.change g >>= f) s R := h

theorem note {e : Event K} {c' f : Unit → Action K β}
    (h : Keeps I E (c' ()) (f ()) { s with journal := e :: s.journal } R) :
    Keeps I E (Action.note e >>= c') (Action.note e >>= f) s R := h

/-- A change of the program that cannot fail, made in one step or in several. -/
theorem change_eq {c act : Action K Unit} {q : Program K} {Q : Unit → Session K → Prop}
    (hc : c s = .ok () { s with program := q }) (hact : act s = .ok () { s with program := q })
    (hI : s.Everywhere I) (hq : I q) (hQ : Q () { s with program := q }) : Keeps I E c act s Q := by
  refine ⟨hc.trans hact.symm, ?_⟩
  rw [hact]
  exact ⟨⟨hq, hI.2⟩, hQ⟩

/-- A check that does not fail. -/
theorem require {cond : Program K → Prop} [DecidablePred cond] {c' : Unit → Action K β}
    {f : Action K β} (hc : cond s.program) (h : Keeps I E (c' ()) f s R) :
    Keeps I E (Checked.require cond >>= c') f s R :=
  ⟨(require_bind hc).trans h.1, h.2⟩

/-- A lookup that does not fail. -/
theorem lookup_ok {x : Except Fault γ} {a : γ} {c' : γ → Action K β} {f : Action K β}
    (hx : x = .ok a) (h : Keeps I E (c' a) f s R) : Keeps I E (Checked.lookup x >>= c') f s R := by
  rw [hx]
  exact h

/-- A lookup whose checks do not fail. -/
theorem lookup {x : Except Fault γ} {y : Except BasisFault γ} {c' f : γ → Action K β}
    (hxy : x = y.mapError .basis) (hI : s.Everywhere I) (hE : ∀ e, E (.basis e))
    (h : ∀ a, y = .ok a → Keeps I E (c' a) (f a) s R) :
    Keeps I E (Checked.lookup x >>= c') (Action.basis y >>= f) s R := by
  rw [hxy]
  cases y with
  | error e => exact ⟨rfl, hI, hE e⟩
  | ok a => exact h a rfl

/-- An argument that is not read is a failure before anything is done. -/
theorem argument {x : Except ArgumentFault γ} {c' f : γ → Action K β} (hI : s.Everywhere I)
    (hE : ∀ e, x = .error e → E (.argument e)) (h : ∀ a, x = .ok a → Keeps I E (c' a) (f a) s R) :
    Keeps I E (Action.argument x >>= c') (Action.argument x >>= f) s R := by
  cases x with
  | error e => exact throw hI (hE e rfl)
  | ok a => exact h a rfl

/-- A check afterwards that the invariant answers for. -/
theorem require_after {cond : Program K → Prop} [DecidablePred cond] {act : Action K Unit}
    (hcond : ∀ {p}, I p → cond p) (h : Keeps I E act act s fun _ _ => True) :
    Keeps I E (do act; Checked.require cond) act s fun _ _ => True := by
  -- the check is the last step, so it only matters after an action that has not failed
  have heq : (do act; Checked.require cond : Action K Unit) s = act s := by
    change EStateM.bind act _ s = _
    unfold EStateM.bind
    cases hact : act s with
    | error e s' => rfl
    | ok a s' => exact require_ok (hcond (h.of_ok hact).1.1)
  exact ⟨heq, h.2⟩

end Keeps

end Checked

end Simplex
