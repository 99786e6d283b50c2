import Simplex.Proofs.Checked.Operations
/-! The matrix keeps its shape whatever is done, whether the other parts of the program fit it or
    not. A program that is made of a snapshot may have restrictions or flags that do not fit its
    variables; an operation on it may then fail half way, but what it leaves has a row for every
    right-hand side and in it a coefficient for every variable. One rule for each way of putting
    actions together carries this from the parts to the whole. -/

namespace Simplex

namespace Program
variable {K : Type} {p : Program K}

/-- The matrix is not asked about relations and restrictions. -/
theorem Rectangular.exists_shaped (h : p.Rectangular) : Shaped { p with
    restrictions := List.replicate p.n .nonNegative, relations := List.replicate p.m .equal } :=
  ⟨⟨h.rows, h.row⟩, List.length_replicate, List.length_replicate.ge⟩

theorem Rectangular.appendRow (h : p.Rectangular) (b : K) {row : List K} (hrow : row.length = p.n) :
    (p.appendRow b row).Rectangular := by
  have hshaped := h.exists_shaped.appendConstraint .equal b hrow
  exact ⟨hshaped.rows, hshaped.row⟩

/-- A program that is made of a snapshot has a matrix if the snapshot has one: where there are rows,
    the new objective has their length. -/
theorem Rectangular.apply {changes : Changes K} {q : Program K} (h : p.Rectangular)
    (hq : changes.apply p = .ok q) : q.Rectangular := by
  obtain ⟨objective, -, hq⟩ := exists_of_bind_ok hq
  obtain ⟨tolerance, -, hq⟩ := exists_of_bind_ok hq
  obtain ⟨costs, -, hq⟩ := exists_of_bind_ok hq
  obtain ⟨constant, -, hq⟩ := exists_of_bind_ok hq
  by_cases hfits : p.m * costs.length = p.m * p.n
  · rw [if_neg (not_not.2 hfits)] at hq
    cases hq
    refine ⟨h.rows, fun row hrow => ?_⟩
    have hm : 0 < p.m := h.rows ▸ List.length_pos_of_mem hrow
    exact (h.row row hrow).trans (Nat.eq_of_mul_eq_mul_left hm hfits).symm
  · rw [if_pos hfits] at hq
    cases hq

variable [Scalar K]

theorem Rectangular.equalize (h : p.Rectangular) (i : ℕ) : (p.equalize i).Rectangular := by
  unfold Program.equalize
  split
  · have hnegated := h.exists_shaped.negateRow i
    exact ⟨hnegated.rows, hnegated.row⟩
  · exact ⟨h.rows, h.row⟩

theorem Rectangular.artificials (h : p.Rectangular) (k : ℕ) :
    (p.artificials k).Rectangular ∧ (p.artificials k).m = p.m ∧ (p.artificials k).n = p.n + k := by
  induction k with
  | zero => exact ⟨h, rfl, rfl⟩
  | succ k ih =>
    obtain ⟨hq, hm, hn⟩ := ih
    rw [artificials_succ]
    refine ⟨rectangular_appendVariable hq (by simp [hm]), hm, ?_⟩
    rw [n_appendVariable, hn, Nat.add_assoc]

/-- The first phase adds a variable for every constraint. -/
theorem Rectangular.auxiliary (h : p.Rectangular) (absolute : Bool) :
    (p.auxiliary absolute).Rectangular ∧ p.n ≤ (p.auxiliary absolute).n := by
  have hobjective := rectangular_auxiliaryObjective (rectangular_normalizeSigns h) absolute
  obtain ⟨hq, -, hn⟩ := hobjective.artificials (p.normalizeSigns.auxiliaryObjective absolute).m
  refine ⟨⟨hq.rows, hq.row⟩, ?_⟩
  rw [n_auxiliaryObjective, n_normalizeSigns] at hn
  exact (Nat.le_add_right _ _).trans hn.ge

end Program

/-! ### Actions -/

namespace Action
open Program
variable {K α β γ : Type}

/-- Wherever the action stops, the matrix has its shape, and so have those of the snapshots; and if
    it comes to its end, there are `c` variables at least, as there were before. -/
def Fits (c : ℕ) (act : Action K α) (s : Session K) : Prop :=
  s.Everywhere Rectangular → c ≤ s.program.n →
    Checked.Keeps Rectangular (fun _ => True) act act s fun _ s' => c ≤ s'.program.n

namespace Fits
variable {c : ℕ} {s : Session K} {act act' : Action K α} {f : α → Action K β}

theorem pure (a : α) : Fits c (pure a : Action K α) s := fun hI hn => .pure hI hn

theorem throw (e : Fault) : Fits c (throw e : Action K α) s := fun hI _ => .throw hI trivial

/-- What comes after a failure is not done. -/
theorem fail (e : Fault) : Fits c ((MonadExcept.throw e : Action K α) >>= f) s :=
  fun hI _ => .throw hI trivial

theorem bind (h : Fits c act s) (hf : ∀ a s', Fits c (f a) s') : Fits c (act >>= f) s :=
  fun hI hn => (h hI hn).bind fun a s' => hf a s'

theorem ite {p : Prop} [Decidable p] (h : Fits c act s) (h' : Fits c act' s) :
    Fits c (if p then act else act') s := by
  split
  · exact h
  · exact h'

theorem forM {f : γ → Action K Unit} (h : ∀ x s', Fits c (f x) s') :
    ∀ (xs : List γ) {s : Session K}, Fits c (xs.forM f) s
  | [], _ => pure ()
  | x :: xs, _ => bind (h x _) fun _ _ => forM h xs

theorem argument (x : Except ArgumentFault α) : Fits c (Action.argument (K := K) x) s := by
  cases x with
  | ok a => exact pure a
  | error e => exact throw _

theorem basis (x : Except BasisFault α) : Fits c (Action.basis (K := K) x) s := by
  cases x with
  | ok a => exact pure a
  | error e => exact throw _

theorem program {f : Program K → Action K β} (h : s.program.Rectangular → Fits c (f s.program) s) :
    Fits c (Action.program >>= f) s := fun hI hn => h hI.1 hI hn

theorem setProgram {q : Program K}
    (h : s.program.Rectangular → c ≤ s.program.n → q.Rectangular ∧ c ≤ q.n) :
    Fits c (Action.setProgram q) s := by
  intro hI hn
  obtain ⟨hq, hn⟩ := h hI.1 hn
  exact .change_eq rfl rfl hI hq hn

theorem change {g : Program K → Program K}
    (h : ∀ p : Program K, p.Rectangular → (g p).Rectangular ∧ p.n ≤ (g p).n) :
    Fits c (Action.change g) s := by
  intro hI hn
  obtain ⟨hq, hle⟩ := h _ hI.1
  exact .change_eq rfl rfl hI hq (hn.trans hle)

theorem note (e : Event K) : Fits c (Action.note e) s :=
  fun hI hn => ⟨rfl, hI, hn⟩

theorem remember (outcome : Outcome) : Fits c (Action.remember (K := K) outcome) s := by
  intro hI hn
  cases outcome <;> exact ⟨rfl, hI, hn⟩

/-! ### Snapshots -/

theorem takeSnapshot (name : String) : Fits c (Action.takeSnapshot name) s := by
  refine fun hI hn => ⟨rfl, ⟨hI.1, fun x hx => ?_⟩, hn⟩
  rcases List.mem_cons.1 hx with rfl | hx
  · exact hI.1
  · exact hI.2 x hx

/-- Every snapshot has a matrix, with any number of variables. -/
theorem snapshot_bind {f : Program K → Action K β} (name : String)
    (hf : ∀ p : Program K, p.Rectangular → ∀ s', Fits 0 (f p) s') :
    Fits 0 (Action.snapshot name >>= f) s :=
  fun hI _ => ((Checked.Keeps.snapshot hI name).mono (fun _ _ hp => hp) fun _ _ => trivial).bind
    fun p s' hI' hp => hf p hp s' hI' (Nat.zero_le _)

theorem restore (name : String) : Fits 0 (Action.restore name) s :=
  snapshot_bind name fun _ hp _ => setProgram fun _ _ => ⟨hp, Nat.zero_le _⟩

theorem fork (name : String) (changes : Changes K) : Fits 0 (Action.fork name changes) s :=
  snapshot_bind name fun _ hp _ hI hn => .argument hI (fun _ _ => trivial) fun _ hq =>
    setProgram (fun _ _ => ⟨hp.apply hq, Nat.zero_le _⟩) hI hn

theorem isolated (h : Fits c act s) : Fits c (Action.isolated act) s := by
  refine fun hI hn => ⟨rfl, ?_⟩
  simp only [Action.isolated]
  cases hact : act s with
  | error e s' => exact ⟨⟨hI.1, ((h hI hn).of_error hact).1.2⟩, trivial⟩
  | ok a s' => exact ⟨⟨hI.1, ((h hI hn).of_ok hact).1.2⟩, hn⟩

/-- An operation whose action gives nothing back. -/
theorem done {act : Action K Unit} (h : Fits c act s) :
    Fits c (do act; return (none : Option Outcome)) s :=
  h.bind fun _ _ => pure none

/-! ### Additions and standard form -/

theorem addVariable (coefficient : Except ArgumentFault K) (column : Except ArgumentFault (List K))
    (restriction : Except ArgumentFault Restriction) :
    Fits c (Action.addVariable coefficient column restriction) s := by
  intro hI hn
  refine .argument hI (fun _ _ => trivial) fun kind _ =>
    .argument hI (fun _ _ => trivial) fun w _ => .program ?_
  by_cases hw : w.length = s.program.m
  · have hlowered : (s.program.lowerFlags (kind == .nonNegative)).Rectangular :=
      ⟨hI.1.rows, hI.1.row⟩
    simp only [if_neg (not_not.2 hw)]
    refine .change (.argument ⟨hlowered, hI.2⟩ (fun _ _ => trivial) fun a _ => ?_)
    refine .change_eq rfl rfl ⟨hlowered, hI.2⟩ (rectangular_appendVariable hlowered hw) ?_
    rw [n_appendVariable]
    exact hn.trans (Nat.le_succ _)
  · simp only [if_pos hw]
    exact throw _ hI hn

theorem addConstraint (relation : Except ArgumentFault Relation) (value : Except ArgumentFault K)
    (row : Except ArgumentFault (List K)) : Fits c (Action.addConstraint relation value row) s := by
  intro hI hn
  refine .argument hI (fun _ _ => trivial) fun r _ =>
    .argument hI (fun _ _ => trivial) fun w _ => .program ?_
  by_cases hw : w.length = s.program.n
  · have happended : (s.program.appendRelation r).Rectangular := ⟨hI.1.rows, hI.1.row⟩
    simp only [if_neg (not_not.2 hw)]
    refine .change (.argument ⟨happended, hI.2⟩ (fun _ _ => trivial) fun b _ => ?_)
    exact .change_eq rfl rfl ⟨happended, hI.2⟩ (happended.appendRow b hw) hn
  · simp only [if_pos hw]
    exact throw _ hI hn

theorem setConstant (value : Except ArgumentFault K) : Fits c (Action.setConstant value) s :=
  (argument _).bind fun _ _ => change fun _ hp => ⟨⟨hp.rows, hp.row⟩, le_rfl⟩

variable [Scalar K]

theorem addSlack (i : ℕ) : Fits c (Action.addSlack (K := K) i) s := by
  refine program fun _ => ?_
  split
  · exact throw _
  · exact pure ()
  · exact (change fun p hp => ⟨hp.equalize i, (p.n_equalize i).ge⟩).bind
      fun _ _ => addVariable _ _ _

theorem splitVariable (j : ℕ) : Fits c (Action.splitVariable (K := K) j) s := by
  refine program fun _ => ?_
  split
  · exact throw _
  · exact pure ()
  · have hrestrict : ∀ s', Fits c (Action.change (Program.restrict (K := K) j)) s' :=
      fun _ => change fun _ hp => ⟨⟨hp.rows, hp.row⟩, le_rfl⟩
    exact (hrestrict _).bind fun _ _ => addVariable _ _ _

theorem standardize : Fits c (Action.standardize (K := K)) s := by
  refine program fun hp => ite (pure ()) ?_
  have hmaximize : Fits c (Action.setProgram s.program.toMaximize) s :=
    setProgram fun _ hn => ⟨rectangular_toMaximize hp, hn.trans_eq n_toMaximize.symm⟩
  refine hmaximize.bind fun _ _ =>
    (forM (fun i _ => addSlack i) _).bind fun _ _ => program fun _ => ?_
  refine (forM (fun j _ => splitVariable j) _).bind fun _ _ => change fun _ hq => ?_
  exact ⟨⟨hq.rows, hq.row⟩, le_rfl⟩

theorem prepare (absolute : Bool) : Fits c (Action.prepare (K := K) absolute) s := by
  rw [prepare_eq_auxiliary]
  exact program fun _ => ite (pure ())
    (standardize.bind fun _ _ => change fun _ hp => hp.auxiliary absolute)

/-! ### The search -/

/-- A pivot is inside the tableau, or it fails. -/
theorem pivot (row column : ℤ) : Fits c (Action.pivot (K := K) row column) s := by
  intro hI hn
  rcases Action.pivot_cases s row column with ⟨r, hr, j, hj, rfl, rfl⟩ | ⟨-, hfail⟩ | ⟨-, hfail⟩
  · refine ⟨rfl, ?_⟩
    rw [pivot_eq hr hj]
    exact ⟨⟨rectangular_pivot hI.1 hr, hI.2⟩, hn.trans_eq (n_pivot hI.1 hr).symm⟩
  · refine ⟨rfl, ?_⟩
    rw [hfail]
    exact ⟨hI, trivial⟩
  · refine ⟨rfl, ?_⟩
    rw [hfail]
    exact ⟨hI, trivial⟩

theorem search : ∀ (limit : ℕ) (nonbasic : List ℤ) {s : Session K},
    Fits c (Action.search limit nonbasic) s
  | 0, _, _ => throw _
  | limit + 1, nonbasic, _ => by
    refine program fun _ => (basis _).bind fun move _ => ?_
    cases move with
    | stop outcome => exact pure _
    | exchange row entering leaving =>
      exact (pivot _ _).bind fun _ _ => program fun _ => (note _).bind fun _ _ => search limit _

theorem solveFrom (limit : ℕ) (nonbasic : List ℤ) :
    Fits c (Action.solveFrom (K := K) limit nonbasic) s :=
  program fun _ => ite (fail _) (search limit _)

/-! ### The two phases -/

theorem firstPhase (limit : ℕ) (absolute : Bool) :
    Fits c (Action.firstPhase (K := K) limit absolute) s := by
  refine program fun _ => (prepare absolute).bind fun _ _ => (solveFrom limit _).bind fun o _ => ?_
  cases o with
  | unbounded => exact pure _
  | infeasible => exact pure _
  | optimal nonbasic =>
    refine program fun _ => (note _).bind fun _ _ => ite (pure _) ((basis _).bind fun j? _ => ?_)
    cases j? with
    | none => exact pure _
    | some j => exact (note _).bind fun _ _ => pure _

theorem replaceArtificials (structural : ℕ) :
    ∀ (js : List ℕ) (nonbasic : List ℤ) (redundant : List ℕ) {s : Session K},
    Fits c (Action.replaceArtificials structural js nonbasic redundant) s
  | [], _, _, _ => pure _
  | j :: js, nonbasic, redundant, _ => by
    refine ite (replaceArtificials structural js _ _)
      (program fun _ => (basis _).bind fun row _ => ?_)
    split
    · exact replaceArtificials structural js _ _
    · exact ite (fail _) ((pivot _ _).bind fun _ _ => replaceArtificials structural js _ _)

/-- The structural variables are left, and no others. -/
theorem dropArtificials (nonbasic : List ℤ) (hI : s.Everywhere Rectangular) (hn : c ≤ s.program.n) :
    Checked.Keeps Rectangular (fun _ => True) (Action.dropArtificials c nonbasic)
      (Action.dropArtificials c nonbasic) s fun _ s' => s'.program.n = c := by
  have hstrip : ∀ (s : Session K) (redundant : List ℕ) (left : List ℤ), s.Everywhere Rectangular →
      c ≤ s.program.n → Checked.Keeps Rectangular (fun _ => True)
        (do Action.change (Program.strip c redundant); return left)
        (do Action.change (Program.strip c redundant); return left) s
        fun _ s' => s'.program.n = c :=
    fun s redundant left hI hn => .change (.pure ⟨rectangular_strip hI.1 hn, hI.2⟩ (n_strip hn))
  refine .program ((replaceArtificials c _ _ _ hI hn).bind fun x s₁ hI₁ hn₁ => ?_)
  obtain ⟨found, redundant⟩ := x
  dsimp only
  split_ifs
  · exact .note (hstrip _ redundant _ hI₁ hn₁)
  · exact hstrip _ redundant _ hI₁ hn₁

theorem feasibleBasis {standard : Program K} (hstandard : standard.Rectangular)
    (hc : c ≤ standard.n) (limit : ℕ) :
    Fits c (Action.feasibleBasis limit standard) s := by
  have again : ∀ (ended : Outcome) (s' : Session K), Fits c
      (do Action.note (.retry ended); Action.setProgram standard; Action.firstPhase limit false)
      s' :=
    fun ended s' => (note _).bind fun _ _ => (setProgram fun _ _ => ⟨hstandard, hc⟩).bind fun _ _ =>
      firstPhase limit false
  refine (firstPhase limit true).bind fun o s' => ?_
  cases o with
  | optimal nonbasic => exact pure _
  | unbounded => exact again _ s'
  | infeasible => exact again _ s'

theorem solve (limit : ℕ) : Fits 0 (Action.solve (K := K) limit) s := by
  have hrelease : ∀ s', Fits 0
      (Action.change fun p : Program K => { p with simplex := false }) s' :=
    fun _ => change fun _ hp => ⟨⟨hp.rows, hp.row⟩, le_rfl⟩
  refine standardize.bind fun _ s₁ => (hrelease s₁).bind fun _ s₂ => ?_
  -- from here on the width of the standard form is the one that has to last
  intro hI _
  have hbasis := feasibleBasis (c := s₂.program.n) (s := s₂) hI.1 le_rfl limit hI le_rfl
  refine .program (hbasis.bind fun o s₃ hI₃ hn₃ => ?_)
  cases o with
  | unbounded => exact .pure hI₃ (Nat.zero_le _)
  | infeasible => exact .pure hI₃ (Nat.zero_le _)
  | optimal nonbasic =>
    refine (dropArtificials nonbasic hI₃ hn₃).bind fun left s₄ hI₄ hn₄ => ?_
    have hrestore : Fits 0 (Action.restoreObjective s₂.program left) s₄ :=
      program fun hp => (basis _).bind fun _ _ => setProgram fun _ _ =>
        ⟨rectangular_withObjective hp hn₄, Nat.zero_le _⟩
    refine (hrestore hI₄ (Nat.zero_le _)).bind fun _ s₅ hI₅ hn₅ => ?_
    exact program (fun _ => (note _).bind fun _ _ => solveFrom limit left) hI₅ hn₅

end Fits

end Action

/-! ### Operations -/

namespace Operation
variable {K : Type} [Scalar K]

mutual

theorem fits_perform (limit : ℕ) :
    ∀ (op : Operation K) (s : Session K), Action.Fits 0 (op.perform limit) s
  | .addVariable coefficient column restriction, _ =>
    (Action.Fits.addVariable coefficient column restriction).done
  | .addConstraint relation value row, _ => (Action.Fits.addConstraint relation value row).done
  | .setConstant value, _ => (Action.Fits.setConstant value).done
  | .standardize, _ => Action.Fits.standardize.done
  | .prepare absolute, _ => (Action.Fits.prepare absolute).done
  | .pivot row column, _ => (Action.Fits.pivot row column).done
  | .solve, _ => (Action.Fits.solve limit).bind fun o _ => .remember o
  | .solveFrom nonbasic, _ => (Action.Fits.solveFrom limit nonbasic).bind fun o _ => .remember o
  | .snapshot name, _ => (Action.Fits.takeSnapshot name).done
  | .restore name, _ => (Action.Fits.restore name).done
  | .fork name changes, _ => (Action.Fits.fork name changes).done
  | .isolated body, s => (fits_performAll limit body s).isolated

theorem fits_performAll (limit : ℕ) : ∀ (ops : List (Operation K)) (s : Session K),
    Action.Fits 0 (performAll limit ops) s
  | [], _ => Action.Fits.pure none
  | op :: ops, s => (fits_perform limit op s).bind fun _ s' => fits_performAll limit ops s'

end

end Operation

/-- In every history the program under work has a matrix, and so has every snapshot. -/
theorem Session.everywhere_rectangular {K : Type} [Scalar K] {s : Session K}
    (hs : s.Everywhere Program.Rectangular) (limit : ℕ) (ops : List (Operation K)) :
    (run limit ops s).Everywhere Program.Rectangular := by
  refine run_invariant hs fun x _ hI => ?_
  have hfits := Operation.fits_perform limit x.1 x.2 hI (Nat.zero_le _)
  unfold Action.after
  cases hperform : x.1.perform limit x.2 with
  | error e s' => exact (hfits.of_error hperform).1
  | ok a s' => exact (hfits.of_ok hperform).1

end Simplex
