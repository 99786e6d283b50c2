import Simplex.Proofs.Invariants
import Simplex.Proofs.Isolation.Copy
import Simplex.Proofs.Isolation.Dependence
/-! A block leaves no trace. Whatever runs inside, its answer or its failure is passed on,
    the program is afterwards what it was before, and everything that is done later is
    answered as if the block had not been run. Only a snapshot that was taken inside is
    there that would not be there. -/

namespace Simplex

/-! ### Names -/

namespace Operation
variable {K : Type}

mutual

/-- The names under which snapshots are taken. -/
def taken : Operation K → List String
  | .snapshot name => [name]
  | .isolated body => allTaken body
  | _ => []

def allTaken : List (Operation K) → List String
  | [] => []
  | op :: ops => op.taken ++ allTaken ops

end

/-- The names that are still strange after the operation: a snapshot that is taken anew is known. -/
def strangeAfter (strange : List String) : Operation K → List String
  | .snapshot name => strange.filter (· ≠ name)
  | _ => strange

mutual

/-- No snapshot under a strange name is asked for. -/
def Avoids (strange : List String) : Operation K → Prop
  | .restore name | .fork name _ => name ∉ strange
  | .isolated body => AllAvoid strange body
  | _ => True

def AllAvoid (strange : List String) : List (Operation K) → Prop
  | [] => True
  | op :: ops => op.Avoids strange ∧ AllAvoid (op.strangeAfter strange) ops

end

theorem strangeAfter_subset (strange : List String) (op : Operation K) :
    op.strangeAfter strange ⊆ strange := by
  cases op with
  | snapshot name => exact List.filter_subset_self _
  | _ => exact List.Subset.refl _

end Operation

namespace Session
variable {K : Type} {s t : Session K} {strange : List String}

/-- The program that is kept under a name. -/
def kept (s : Session K) (name : String) : Option (Program K) :=
  (s.snapshots.find? (·.1 == name)).map (·.2)

theorem snapshot_eq (s : Session K) (name : String) : Action.snapshot name s =
    match s.kept name with
    | some p => .ok p s
    | none => .error .unknownName s := by
  unfold Action.snapshot kept
  cases s.snapshots.find? (·.1 == name) <;> rfl

theorem kept_cons (s : Session K) (name other : String) (p : Program K) :
    ({ s with snapshots := (name, p) :: s.snapshots } : Session K).kept other =
      if name = other then some p else s.kept other := by
  unfold kept
  by_cases h : name = other <;> simp [h]

/-! ### Sessions that agree -/

/-- The sessions have one program, and one snapshot under every name that is not strange. Since the
    journals were `before` and `before'`, the same has been noted in both. -/
structure Agree (strange : List String) (before before' : List (Event K)) (s t : Session K) :
    Prop where
  program : s.program = t.program
  kept : ∀ name ∉ strange, s.kept name = t.kept name
  journal : ∃ events, s.journal = events ++ before ∧ t.journal = events ++ before'

variable {before before' : List (Event K)}

theorem Agree.mono {strange' : List String} (hsub : strange' ⊆ strange)
    (h : Agree strange' before before' s t) :
    Agree strange before before' s t :=
  ⟨h.program, fun name hname => h.kept name fun hmem => hname (hsub hmem), h.journal⟩

theorem parallel_agree : Parallel (Agree strange before before') where
  program h := h.program
  overwritten h _ := ⟨rfl, h.kept, h.journal⟩
  noted h e := by
    obtain ⟨events, hs, ht⟩ := h.journal
    exact ⟨h.program, h.kept, e :: events, congrArg (e :: ·) hs, congrArg (e :: ·) ht⟩
  remembered h _ := ⟨h.program, h.kept, h.journal⟩

theorem follows_snapshot {name : String} (h : name ∉ strange) :
    Action.Follows (Agree strange before before') (Action.snapshot name) := by
  intro s t hst
  rw [snapshot_eq, snapshot_eq, hst.kept name h]
  cases t.kept name with
  | none => exact .error hst
  | some p => exact .ok hst

/-- A snapshot that is taken in both sessions is no longer strange. -/
theorem Agree.takeSnapshot (h : Agree strange before before' s t) (name : String) :
    Agree (strange.filter (· ≠ name)) before before'
      { s with snapshots := (name, s.program) :: s.snapshots }
      { t with snapshots := (name, t.program) :: t.snapshots } := by
  refine ⟨h.program, fun other hother => ?_, h.journal⟩
  rw [kept_cons, kept_cons, h.program]
  split
  · rfl
  · rename_i hne
    refine h.kept other fun hmem => hother (List.mem_filter.2 ⟨hmem, ?_⟩)
    exact decide_eq_true fun heq => hne heq.symm

/-! ### Operations in sessions that agree -/

section Later
variable [Scalar K]

mutual

theorem agree_perform (limit : ℕ) : ∀ (op : Operation K) {strange : List String} {s t : Session K},
    op.Avoids strange → Agree strange before before' s t →
    SameEnd (Agree (op.strangeAfter strange) before before') (op.perform limit s)
      (op.perform limit t)
  | .snapshot name, _, _, _, _, h => .ok (h.takeSnapshot name)
  | .restore _, _, _, _, hname, h =>
    ((Action.Follows.restore parallel_agree (follows_snapshot hname)).bind fun _ => .pure _) h
  | .fork _ changes, _, _, _, hname, h =>
    ((Action.Follows.fork parallel_agree changes (follows_snapshot hname)).bind fun _ => .pure _) h
  | .isolated body, _, _, _, hbody, h =>
    Action.Follows.isolated parallel_agree (fun _ _ hst => agree_performAll limit body hbody hst) h
  | .addVariable .., _, _, _, _, h | .addConstraint .., _, _, _, _, h
  | .setConstant _, _, _, _, _, h | .standardize, _, _, _, _, h | .prepare _, _, _, _, _, h
  | .pivot .., _, _, _, _, h | .solve, _, _, _, _, h | .solveFrom _, _, _, _, _, h =>
    Operation.follows_of_plain parallel_agree limit _ (by trivial) h

theorem agree_performAll (limit : ℕ) :
    ∀ (ops : List (Operation K)) {strange : List String} {s t : Session K},
    Operation.AllAvoid strange ops → Agree strange before before' s t →
    SameEnd (Agree strange before before') (Operation.performAll limit ops s)
    (Operation.performAll limit ops t)
  | [], _, _, _, _, h => .ok h
  | op :: ops, strange, s, t, hops, h => by
    -- an operation only takes names off the strange ones, so to agree after it is to agree
    have hmono : ∀ {s t : Session K}, Agree (op.strangeAfter strange) before before' s t →
        Agree strange before before' s t := fun hst => hst.mono (op.strangeAfter_subset strange)
    change SameEnd _ (EStateM.bind (op.perform limit) _ s) (EStateM.bind (op.perform limit) _ t)
    unfold EStateM.bind
    have hend := agree_perform limit op hops.1 h
    cases hs : op.perform limit s <;> cases ht : op.perform limit t <;> rw [hs, ht] at hend
      <;> cases hend
    case ok.ok.ok hst => exact (agree_performAll limit ops hops.2 hst).mono hmono
    case error.error.error hst => exact .error (hmono hst)

end

/-! ### What comes later -/

/-- What a history tells: the answer of every operation, and the program after it. -/
def account (limit : ℕ) :
    List (Operation K) → Session K → List (Except Fault (Option Outcome) × Program K)
  | [], _ => []
  | op :: ops, s => ((op.perform limit).answer s, ((op.perform limit).after s).program) ::
      account limit ops ((op.perform limit).after s)

/-- Nothing that comes later tells the sessions apart. They have one program, and operations that
    ask for no snapshot under one of the names give the same answers, leave the same programs and
    note the same events. -/
structure SameFuture (names : List String) (s t : Session K) : Prop where
  program : s.program = t.program
  account : ∀ (limit : ℕ) (later : List (Operation K)), Operation.AllAvoid names later →
    account limit later s = account limit later t
  events : ∀ (limit : ℕ) (later : List (Operation K)), Operation.AllAvoid names later →
    ∃ events, (run limit later s).journal = events ++ s.journal ∧
    (run limit later t).journal = events ++ t.journal

theorem Agree.run (limit : ℕ) {later : List (Operation K)}
    (hlater : Operation.AllAvoid strange later) (h : Agree strange before before' s t) :
    account limit later s = account limit later t ∧
      ∃ events, (Session.run limit later s).journal = events ++ before ∧
        (Session.run limit later t).journal = events ++ before' := by
  induction later generalizing strange s t with
  | nil => exact ⟨rfl, h.journal⟩
  | cons op later ih =>
    obtain ⟨hanswer, hafter⟩ := (agree_perform limit op hlater.1 h).answer_after
    obtain ⟨haccount, hevents⟩ := ih hlater.2 hafter
    exact ⟨by rw [account, account, hanswer, hafter.program, haccount], hevents⟩

/-- The program and the snapshots are all that an operation looks at. -/
theorem sameFuture_of_kept {names : List String} (hprogram : s.program = t.program)
    (hkept : ∀ name ∉ names, s.kept name = t.kept name) : SameFuture names s t := by
  have hagree : Agree names s.journal t.journal s t := ⟨hprogram, hkept, [], rfl, rfl⟩
  exact ⟨hprogram, fun limit _ hlater => (hagree.run limit hlater).1,
    fun limit _ hlater => (hagree.run limit hlater).2⟩

/-! ### The snapshots that were there -/

/-- There is one session, and under all other names than the given ones it
    keeps what `base` says. -/
def Frame (names : List String) (base : String → Option (Program K)) (s t : Session K) : Prop :=
  s = t ∧ ∀ name ∉ names, s.kept name = base name

variable {names : List String} {base : String → Option (Program K)}

omit [Scalar K] in
theorem parallel_frame : Parallel (Frame names base) where
  program h := congrArg Session.program h.1
  overwritten := by
    rintro s _ ⟨rfl, hkept⟩ p
    exact ⟨rfl, hkept⟩
  noted := by
    rintro s _ ⟨rfl, hkept⟩ e
    exact ⟨rfl, hkept⟩
  remembered := by
    rintro s _ ⟨rfl, hkept⟩ is
    exact ⟨rfl, hkept⟩

omit [Scalar K] in
theorem follows_snapshot_frame (name : String) :
    Action.Follows (Frame names base) (Action.snapshot name) := by
  rintro s _ ⟨rfl, hkept⟩
  rw [snapshot_eq]
  cases s.kept name with
  | none => exact .error ⟨rfl, hkept⟩
  | some p => exact .ok ⟨rfl, hkept⟩

omit [Scalar K] in
theorem follows_takeSnapshot_frame {name : String} (hname : name ∈ names) :
    Action.Follows (Frame names base) (Action.takeSnapshot name) := by
  rintro s _ ⟨rfl, hkept⟩
  refine .ok ⟨rfl, fun other hother => ?_⟩
  have hne : name ≠ other := fun heq => hother (heq ▸ hname)
  rw [kept_cons, if_neg hne, hkept other hother]

mutual

theorem frame_perform (limit : ℕ) : ∀ op : Operation K, op.taken ⊆ names →
    Action.Follows (Frame names base) (op.perform limit)
  | .snapshot _, hnames =>
    (follows_takeSnapshot_frame (hnames List.mem_cons_self)).bind fun _ => .pure _
  | .restore name, _ =>
    (Action.Follows.restore parallel_frame (follows_snapshot_frame name)).bind fun _ => .pure _
  | .fork name changes, _ =>
    (Action.Follows.fork parallel_frame changes (follows_snapshot_frame name)).bind fun _ => .pure _
  | .isolated body, hnames =>
    Action.Follows.isolated parallel_frame (frame_performAll limit body hnames)
  | .addVariable .., _ | .addConstraint .., _ | .setConstant _, _ | .standardize, _ | .prepare _, _
  | .pivot .., _ | .solve, _ | .solveFrom _, _ =>
    Operation.follows_of_plain parallel_frame limit _ (by trivial)

theorem frame_performAll (limit : ℕ) : ∀ ops : List (Operation K), Operation.allTaken ops ⊆ names →
    Action.Follows (Frame names base) (Operation.performAll limit ops)
  | [], _ => .pure _
  | op :: ops, hnames => by
    obtain ⟨hop, hops⟩ := List.append_subset.1 hnames
    exact (frame_perform limit op hop).bind fun _ => frame_performAll limit ops hops

end

/-- Operations take snapshots under their names only, whether they come to their end or fail. -/
theorem kept_after_performAll (limit : ℕ) (ops : List (Operation K)) (s : Session K) {name : String}
    (hname : name ∉ Operation.allTaken ops) :
    ((Operation.performAll limit ops).after s).kept name = s.kept name := by
  have hframe : Frame (Operation.allTaken ops) s.kept s s := ⟨rfl, fun _ _ => rfl⟩
  exact (frame_performAll limit ops (List.Subset.refl _) hframe).answer_after.2.2 name hname

/-- A block is no matter for what comes later but for the snapshots that are taken inside. -/
theorem sameFuture_isolated {α : Type} (act : Action K α) {names : List String}
    (hkept : ∀ name ∉ names, (act.after s).kept name = s.kept name) :
    SameFuture names ((Action.isolated act).after s) s := by
  refine sameFuture_of_kept (Action.program_after_isolated act s) fun name hname => ?_
  rw [← hkept name hname, kept, kept, Action.snapshots_after_isolated]

end Later

/-! ### Blocks -/

/-- In every history a block is isolated by a copy of the program. Any action whatsoever may run
    inside and leave the program in any state: its answer or its failure is passed on, the program
    is what it was, and if the action has taken snapshots under some names only, nothing that comes
    later and asks for none of them tells that the block was run. So it is with blocks of
    operations, the blocks and snapshots inside them being made by copies too. -/
theorem isolated_run {p : Program Float} (hp : p.Begins) (limit : ℕ) {ops : List (Operation Float)}
    {s : Session Float} (hs : run limit ops (start p) = s) :
    (∀ {α : Type} (act : Action Float α),
      (Copied.isolated act).answer s = act.answer s ∧
      ((Copied.isolated act).after s).program = s.program ∧
      ∀ names : List String, (∀ name ∉ names, (act.after s).kept name = s.kept name) →
        SameFuture names ((Copied.isolated act).after s) s) ∧
    ∀ (limit : ℕ) (body : List (Operation Float)),
      Copied.perform limit (.isolated body) s = (Operation.isolated body).perform limit s ∧
      (Copied.perform limit (.isolated body)).answer s =
        (Operation.performAll limit body).answer s ∧
      SameFuture (Operation.allTaken body) ((Copied.perform limit (.isolated body)).after s) s := by
  have hI : s.Everywhere Program.Rectangular :=
    hs ▸ everywhere_rectangular (everywhere_start hp.truthful.shaped.toRectangular) limit ops
  refine ⟨fun act => ?_, fun limit body => ?_⟩
  · have hcopy := Copied.isolated_eq act hI.1
    rw [Action.answer_congr hcopy, Action.after_congr hcopy]
    exact ⟨Action.answer_isolated act s, Action.program_after_isolated act s,
      fun _ => sameFuture_isolated act⟩
  · have hcopy : Copied.perform limit (.isolated body) s =
        (Operation.isolated body).perform limit s :=
      Copied.perform_eq (.isolated body) hI
    rw [Action.answer_congr hcopy, Action.after_congr hcopy]
    refine ⟨hcopy, Action.answer_isolated _ s, ?_⟩
    exact sameFuture_isolated _ fun _ => kept_after_performAll limit body s

/-- A program without constraints is gone on with under another objective, so that two of its three
    variables have no restriction. -/
def beginnings : List (Operation Float) :=
  [.addVariable (.ok 1) (.ok []) (.ok .unrestricted), .snapshot "before",
    .fork "before" { costs := some (.ok [1, 2, 3]) },
    .addConstraint (.ok .equal) (.ok 3) (.ok [1, 1, 0])]

/-- A block within the block goes back to the beginning. Then a variable is split, and the standard
    form fails at one without a restriction. -/
def unfinished : List (Operation Float) :=
  [.snapshot "inside", .isolated [.restore "before"], .standardize]

/-- The block has left a variable more, in a program that is half in standard form. The failure is
    passed on, and one can go back to the beginning and solve it as if nothing had happened. -/
theorem isolated_run_unfinished :
    ((Operation.performAll 0 unfinished).after
      (run 0 beginnings (start (.empty .minimize 0)))).program.n = 4 ∧
    (Copied.perform 0 (.isolated unfinished)).answer
    (run 0 beginnings (start (.empty .minimize 0))) =
      .error .misaligned ∧
    account 0 [.restore "before", .solve]
        ((Copied.perform 0 (.isolated unfinished)).after
          (run 0 beginnings (start (.empty .minimize 0)))) =
      account 0 [.restore "before", .solve] (run 0 beginnings (start (.empty .minimize 0))) := by
  have hlater : Operation.AllAvoid (Operation.allTaken unfinished)
      ([.restore "before", .solve] : List (Operation Float)) := by
    simp [unfinished, Operation.allTaken, Operation.taken, Operation.AllAvoid, Operation.Avoids]
  have hrun : run 0 beginnings (start (.empty .minimize 0)) =
      run 0 beginnings (start (.empty .minimize 0)) := rfl
  obtain ⟨-, hanswer, hfuture⟩ :=
    (isolated_run (.inl ⟨.ok .minimize, .ok 0, rfl⟩) 0 hrun).2 0 unfinished
  exact ⟨rfl, hanswer.trans rfl, hfuture.account 0 _ hlater⟩

end Session

end Simplex
