import Simplex.Proofs.Run
import Simplex.Proofs.Checked.Keeps
/-! No check of the search fails. Every action of the two-phase method is what it is with its
    checks, on every program that keeps an invariant. It keeps the invariant wherever it stops, and
    fails only where the search finds no basis or is out of steps. -/

namespace Simplex

/-- The search finds no basis or is out of steps. -/
def Fault.OfSearch (e : Fault) : Prop := (∃ f, e = .basis f) ∨ e = .outOfSteps

namespace Program
variable {K : Type}

/-- The matrix has as many rows and columns as another one, and the program is marked as
    standard if the other is. -/
structure Alike (p q : Program K) : Prop where
  m : q.m = p.m
  n : q.n = p.n
  standard : q.standard = p.standard

theorem Alike.refl (p : Program K) : p.Alike p := ⟨rfl, rfl, rfl⟩

theorem Alike.trans {p q r : Program K} (h : p.Alike q) (h' : q.Alike r) : p.Alike r :=
  ⟨h'.m.trans h.m, h'.n.trans h.n, h'.standard.trans h.standard⟩

theorem alike_pivot [Scalar K] {p : Program K} (hp : p.Rectangular) {r : ℕ} (hr : r < p.m) (s : ℕ) :
    p.Alike (p.pivot r s) := ⟨m_pivot hp, n_pivot hp hr, rfl⟩

end Program

namespace Checked
open Program
variable {K : Type} [Scalar K] {I : Program K → Prop} {E : Fault → Prop} {s : Session K}

/-! ### Standard form -/

/-- With a row for every right-hand side the checked addition is the addition. -/
theorem addVariable_eq {K : Type} {s : Session K} (h : s.program.Shaped)
    (coefficient : Except ArgumentFault K) (column : Except ArgumentFault (List K))
    (restriction : Except ArgumentFault Restriction) :
    Checked.addVariable coefficient column restriction s =
      Action.addVariable coefficient column restriction s :=
  require_bind h.rows

theorem addSlack_eq {i : ℕ} (h : s.program.Shaped) (hi : i < s.program.m) :
    Checked.addSlack i s = .ok () { s with program := s.program.addSlack i } := by
  have hrelations := hi.trans_le h.relations
  rw [Checked.addSlack, require_bind ⟨hi, hrelations, h.rows.symm ▸ hi⟩,
    ← Action.addSlack_eq hrelations]
  simp only [Action.addSlack, bind, EStateM.bind, Action.program,
    List.getElem?_eq_getElem hrelations]
  cases s.program.relations[i] with
  | equal => rfl
  | lessEqual => exact addVariable_eq (s := { s with program := _ }) (h.equalize i) _ _ _
  | greaterEqual => exact addVariable_eq (s := { s with program := _ }) (h.equalize i) _ _ _

theorem splitVariable_eq {j : ℕ} (h : s.program.Shaped) (hj : j < s.program.n) :
    Checked.splitVariable j s = .ok () { s with program := s.program.splitVariable j } := by
  have hrestrictions : j < s.program.restrictions.length := h.restrictions.symm ▸ hj
  rw [Checked.splitVariable, require_bind ⟨hj, hrestrictions, h.toRectangular⟩,
    ← Action.splitVariable_eq hrestrictions h.rows]
  simp only [Action.splitVariable, bind, EStateM.bind, Action.program,
    List.getElem?_eq_getElem hrestrictions]
  cases s.program.restrictions[j] with
  | nonNegative => rfl
  | unrestricted => exact addVariable_eq (s := { s with program := _ }) (h.restrict j) _ _ _

theorem standardize_eq (h : s.program.Shaped) (hs : s.program.standard = false) :
    Checked.standardize s = .ok () { s with program := s.program.standardForm } := by
  have hslacks := Action.forM_addSlack h fun _ _ => addSlack_eq
  have hsplit :=
    Action.forM_splitVariable (s := { s with program := s.program.equalities }) h.equalities
    fun _ _ => splitVariable_eq
  simp only [Checked.standardize, bind, EStateM.bind, Action.program, Action.setProgram,
    Action.change, hs, Bool.false_eq_true, if_false, hslacks, hsplit]
  rfl

theorem forM_addArtificial (h : s.program.Shaped) :
    (List.range s.program.m).forM addArtificial s =
      .ok () { s with program := s.program.addArtificials } := by
  refine Action.forM_range_eq s.program.artificials rfl fun k _ => ?_
  have hadded : Checked.addArtificial k { s with program := s.program.artificials k } =
      Action.addArtificial k { s with program := s.program.artificials k } :=
    addVariable_eq (h.artificials k).1 _ _ _
  rw [hadded, Action.addArtificial_eq]

/-- The first phase is prepared step by step. -/
theorem auxiliary_eq (absolute : Bool) (h : s.program.Shaped) :
    (do
      Action.change fun p => p.normalizeSigns.auxiliaryObjective absolute
      let q ← Action.program
      (List.range q.m).forM addArtificial
      Action.change fun p => { p with simplex := true } : Action K Unit) s =
    .ok () { s with program := s.program.auxiliary absolute } := by
  have hloop := forM_addArtificial
    (s := { s with program := s.program.normalizeSigns.auxiliaryObjective absolute })
    (h.normalizeSigns.auxiliaryObjective absolute)
  simp only [bind, EStateM.bind, Action.change, Action.program, hloop]
  rfl

namespace Keeps
variable (hinv : Invariant I)
include hinv

theorem standardize (hI : s.Everywhere I) :
    Keeps I E Checked.standardize Action.standardize s fun _ s' =>
    s'.program.standard = true ∧ (s.program.standard = true → s' = s) := by
  cases hs : s.program.standard with
  | false =>
    exact change_eq (standardize_eq (hinv.shaped hI.1) hs)
      (Action.standardize_eq_of_shaped (hinv.shaped hI.1) hs)
      hI (hinv.change hI.1 .standardForm) ⟨rfl, nofun⟩
  | true =>
    refine program ?_
    rw [hs]
    exact pure hI ⟨hs, fun _ => rfl⟩

/-- In the first phase there are artificial variables beside those of the program. -/
theorem prepare (absolute : Bool) (hI : s.Everywhere I) :
    Keeps I E (Checked.prepare absolute) (Action.prepare absolute) s fun _ s' =>
      s.program.standard = true → s.program.n ≤ s'.program.n ∧ s'.program.standard = true := by
  refine program ?_
  cases s.program.simplex with
  | true => exact pure hI fun hs => ⟨le_rfl, hs⟩
  | false =>
    refine bind (standardize hinv hI) fun _ s₁ hI₁ hs₁ => ?_
    have hshaped := hinv.shaped hI₁.1
    refine require hshaped.toRectangular ?_
    refine change_eq (auxiliary_eq absolute hshaped)
      (congrFun (Action.auxiliary_eq absolute) s₁) hI₁
      (hinv.change hI₁.1 (.auxiliary absolute hs₁.1))
      fun hs => ?_
    rw [hs₁.2 hs]
    exact ⟨(hs₁.2 hs ▸ hshaped.auxiliary absolute).2.2.symm ▸ Nat.le_add_right _ _,
      (standard_auxiliary absolute).trans hs⟩

/-! ### The search -/

theorem pivot {r c : ℕ} (hI : s.Everywhere I) (hr : r < s.program.m) (hc : c < s.program.n) :
    Keeps I E (Checked.pivot r c) (Action.pivot r c) s fun _ s' => s.program.Alike s'.program := by
  have hp := (hinv.shaped hI.1).toRectangular
  refine require hp ⟨rfl, ?_⟩
  rw [Action.pivot_eq hr hc]
  exact ⟨⟨hinv.change hI.1 (.pivot c hr), hI.2⟩, alike_pivot hp hr c⟩

theorem search (hI : s.Everywhere I) : ∀ (limit : ℕ) (nonbasic : List ℤ),
    Keeps I Fault.OfSearch (Checked.search limit nonbasic) (Action.search limit nonbasic) s
      fun _ s' =>
      s.program.Alike s'.program := by
  intro limit
  induction limit generalizing s with
  | zero => exact fun _ => throw hI (.inr rfl)
  | succ limit ih =>
    intro nonbasic
    refine program
      (lookup (move_eq (hinv.shaped hI.1).toRectangular) hI (fun f => .inl ⟨f, rfl⟩) ?_)
    rintro (o | ⟨r, e, l⟩) hmove
    · exact pure hI (.refl _)
    · obtain ⟨hr, he⟩ := move_exchange_lt hmove
      refine bind (pivot hinv hI hr he) fun _ s' hI' halike => ?_
      refine program (lookup_ok (shown_eq (hinv.shaped hI'.1)) (note ?_))
      have hrest := ih (s := { s' with journal := .exchanged r e l s'.program :: s'.journal }) hI'
      exact (hrest _).mono (fun _ _ h => halike.trans h) fun _ => id

theorem solveFrom (hI : s.Everywhere I) (limit : ℕ) (nonbasic : List ℤ) :
    Keeps I Fault.OfSearch (Checked.solveFrom limit nonbasic) (Action.solveFrom limit nonbasic) s
      fun _ s' =>
      s.program.Alike s'.program := by
  refine program ?_
  cases s.program.simplex with
  | false => exact throw hI (.inl ⟨_, rfl⟩)
  | true => exact search hinv hI limit _

/-! ### The two phases -/

theorem firstPhase (hI : s.Everywhere I) (hs : s.program.standard = true) (limit : ℕ)
    (absolute : Bool) :
    Keeps I Fault.OfSearch (Checked.firstPhase limit absolute) (Action.firstPhase limit absolute) s
      fun _ s' =>
      s.program.n ≤ s'.program.n ∧ s'.program.standard = true := by
  refine program (bind (prepare hinv absolute hI) fun _ s₁ hI₁ hs₁ => ?_)
  obtain ⟨hn₁, hstandard₁⟩ := hs₁ hs
  refine bind (solveFrom hinv hI₁ limit _) fun outcome s₂ hI₂ halike => ?_
  have hkept : s.program.n ≤ s₂.program.n ∧ s₂.program.standard = true :=
    ⟨halike.n ▸ hn₁, halike.standard.trans hstandard₁⟩
  cases outcome with
  | unbounded => exact pure hI₂ hkept
  | infeasible => exact pure hI₂ hkept
  | optimal nonbasic =>
    refine program (note ?_)
    by_cases hnegative : Scalar.lt (s₂.program.firstPhaseObjective nonbasic)
      (-s₂.program.tolerance) = true
    · simp only [hnegative, if_true]
      exact pure hI₂ hkept
    · simp only [hnegative]
      refine lookup (positiveBasic?_eq (hinv.shaped hI₂.1).toRectangular fun j hj => ?_) hI₂
        (fun f => .inl ⟨f, rfl⟩) ?_
      · exact List.mem_range.1 (List.mem_of_mem_drop hj)
      · rintro (_ | j) -
        · exact pure hI₂ hkept
        · exact note (pure hI₂ hkept)

/-- Every redundant row is a row of the program, and no pivot changes how many there are. -/
theorem replaceArtificials {structural : ℕ} {js : List ℕ} : ∀ {s : Session K} {nonbasic : List ℤ}
    {redundant : List ℕ}, s.Everywhere I → structural ≤ s.program.n → (∀ j ∈ js, j < s.program.n) →
      (∀ i ∈ redundant, i < s.program.m) →
      Keeps I Fault.OfSearch (Checked.replaceArtificials structural js nonbasic redundant)
        (Action.replaceArtificials structural js nonbasic redundant) s fun x s' =>
          s.program.Alike s'.program ∧ ∀ i ∈ x.2, i < s'.program.m := by
  induction js with
  | nil => exact fun hI _ _ hredundant => pure hI ⟨.refl _, hredundant⟩
  | cons j js ih =>
    intro s nonbasic redundant hI hn hjs hredundant
    have hrest : ∀ k ∈ js, k < s.program.n := fun k hk => hjs k (List.mem_cons_of_mem _ hk)
    have hp := (hinv.shaped hI.1).toRectangular
    rw [Checked.replaceArtificials, Action.replaceArtificials]
    split_ifs with hj
    · exact ih hI hn hrest hredundant
    refine program
      (lookup (basicRow_eq hp (hjs j List.mem_cons_self)) hI (fun f => .inl ⟨f, rfl⟩) ?_)
    intro row hrow
    have hrow := basicRow_lt hrow
    refine require (hp.rows.symm ▸ hrow) ?_
    cases he : s.program.replacement? structural row with
    | none =>
      refine ih hI hn hrest ?_
      split_ifs
      · exact hredundant
      · intro i hi
        rcases List.mem_append.1 hi with hi | hi
        · exact hredundant i hi
        · exact List.mem_singleton.1 hi ▸ hrow
    | some entering =>
      have hentering := (replacement?_lt he).trans_le hn
      by_cases hmem : (!nonbasic.contains (entering : ℤ)) = true
      · simp only [hmem, if_true]
        exact throw hI (.inl ⟨_, rfl⟩)
      · simp only [hmem]
        -- a pivot keeps the width and the height, which is all the later steps ask for
        refine bind (pivot hinv hI hrow hentering) fun _ s' hI' halike => ?_
        refine (ih hI' (halike.n ▸ hn) (halike.n ▸ hrest) (halike.m ▸ hredundant)).mono
          ?_ fun _ => id
        exact fun _ _ h => ⟨halike.trans h.1, h.2⟩

/-- The rows that are deleted are there, and the structural variables are left. -/
theorem strip {structural : ℕ} {redundant : List ℕ} (hI : s.Everywhere I)
    (hn : structural ≤ s.program.n) (hs : s.program.standard = true)
    (hredundant : ∀ i ∈ redundant, i < s.program.m) {nonbasic : List ℤ} :
    Keeps I E
      (do
        Checked.require fun p => ∀ i ∈ redundant, i < p.m ∧ i < p.relations.length ∧
          i < p.rows.length
        Action.change (Program.strip structural redundant)
        return nonbasic)
      (do
        Action.change (Program.strip structural redundant)
        return nonbasic) s fun _ s' => s'.program.n = structural ∧ s'.program.standard = true := by
  have hshaped := hinv.shaped hI.1
  refine require (fun i hi => ?_)
    (change (pure ⟨hinv.change hI.1 (.strip redundant hn), hI.2⟩ ⟨n_strip hn, hs⟩))
  have hi := hredundant i hi
  exact ⟨hi, hi.trans_le hshaped.relations, hshaped.rows.symm ▸ hi⟩

theorem dropArtificials {structural : ℕ} (hI : s.Everywhere I) (hn : structural ≤ s.program.n)
    (hs : s.program.standard = true) (nonbasic : List ℤ) :
    Keeps I Fault.OfSearch (Checked.dropArtificials structural nonbasic)
      (Action.dropArtificials structural nonbasic) s fun _ s' =>
        s'.program.n = structural ∧ s'.program.standard = true := by
  refine program (bind (replaceArtificials hinv hI hn ?_ (by simp)) ?_)
  · exact fun j hj => List.mem_range.1 (List.mem_of_mem_drop hj)
  rintro ⟨nonbasic', redundant⟩ s₁ hI₁ ⟨halike, hredundant⟩
  have hn₁ : structural ≤ s₁.program.n := halike.n ▸ hn
  have hs₁ : s₁.program.standard = true := halike.standard.trans hs
  by_cases hnone : redundant = []
  · subst hnone
    exact strip hinv hI₁ hn₁ hs₁ hredundant
  · simp only [ne_eq, hnone, not_false_eq_true, if_true]
    exact note
      (strip (s := { s₁ with journal := .redundant redundant.length :: s₁.journal }) hinv
        hI₁ hn₁ hs₁
      hredundant)

theorem restoreObjective {standard : Program K} (hI : s.Everywhere I)
    (hn : s.program.n = standard.n) (hs : s.program.standard = true) (nonbasic : List ℤ) :
    Keeps I Fault.OfSearch (Checked.restoreObjective standard nonbasic)
      (Action.restoreObjective standard nonbasic) s fun _ _ => True := by
  have hp := (hinv.shaped hI.1).toRectangular
  refine program
    (lookup (basicVariables_eq hp) hI (fun f => .inl ⟨f, rfl⟩) fun columns hcolumns => ?_)
  obtain ⟨hlength, hlt⟩ := basicVariables_lt hcolumns
  refine require ⟨hp, hn, hlength, fun j hj => hn ▸ hlt j hj⟩ ?_
  exact change_eq rfl rfl hI (hinv.change hI.1 (.objective columns hn hs)) trivial

theorem feasibleBasis {standard : Program K} (hI : s.Everywhere I) (hstandard : I standard)
    (hn : s.program.n = standard.n) (hs : s.program.standard = true)
    (hs' : standard.standard = true) (limit : ℕ) :
    Keeps I Fault.OfSearch (Checked.feasibleBasis limit standard)
      (Action.feasibleBasis limit standard) s
      fun _ s' => standard.n ≤ s'.program.n ∧ s'.program.standard = true := by
  refine bind (firstPhase hinv hI hs limit true) fun outcome s₁ hI₁ hkept => ?_
  rw [hn] at hkept
  -- both verdicts go on alike: the program is put back and tried with signed weights
  have hagain (e : Event K) : Keeps I Fault.OfSearch (do
      Action.note e
      Action.setProgram standard
      Checked.require Program.Rectangular
      Checked.firstPhase limit false)
      (do
        Action.note e
        Action.setProgram standard
        Action.firstPhase limit false) s₁ fun _ s' => standard.n ≤ s'.program.n ∧
          s'.program.standard = true := by
    have hsecond :=
      firstPhase (s := { s₁ with program := standard, journal := e :: s₁.journal }) hinv
      ⟨hstandard, hI₁.2⟩ hs' limit false
    exact note (setProgram (require (hinv.shaped hstandard).toRectangular hsecond))
  cases outcome with
  | optimal nonbasic => exact pure hI₁ hkept
  | unbounded => exact hagain _
  | infeasible => exact hagain _

theorem solve (hI : s.Everywhere I) (limit : ℕ) :
    Keeps I Fault.OfSearch (Checked.solve limit) (Action.solve limit) s fun _ _ => True := by
  refine bind (standardize hinv hI) fun _ s₁ hI₁ hs₁ => change ?_
  have hstandard := hinv.change hI₁.1 .release
  refine require (hinv.shaped hstandard).toRectangular (program ?_)
  refine bind (feasibleBasis (s := { s₁ with program := { s₁.program with simplex := false } }) hinv
    ⟨hstandard, hI₁.2⟩ hstandard rfl hs₁.1 hs₁.1 limit) fun outcome s₂ hI₂ hkept => ?_
  cases outcome with
  | unbounded => exact pure hI₂ trivial
  | infeasible => exact pure hI₂ trivial
  | optimal nonbasic =>
    refine bind (dropArtificials hinv hI₂ hkept.1 hkept.2 nonbasic)
      fun nonbasic' s₃ hI₃ hdropped => ?_
    refine bind (restoreObjective hinv hI₃ hdropped.1 hdropped.2 nonbasic') fun _ s₄ hI₄ _ => ?_
    refine program (note ?_)
    have hsearch :=
      solveFrom (s := { s₄ with journal := .secondPhase s₄.program.m s₄.program.n :: s₄.journal })
      hinv hI₄ limit nonbasic'
    exact hsearch.mono (fun _ _ _ => trivial) fun _ => id

end Keeps

end Checked

end Simplex
