import Simplex.Proofs.Codec.Schema
import Simplex.Proofs.Checked.Operations
/-! What holds in every history. A program begins empty or is read from a text. Whatever is done to
    it then, with whatever arguments, scalars and tolerance, and however many operations fail on the
    way, its parts fit together, so no index and no shape is ever wrong; and unless a constraint is
    left without its right-hand side, its flags tell the truth. -/

namespace Simplex

/-! ### Beginnings -/

theorem Program.truthful_empty {K : Type} [Scalar K] (objective : Objective) (tolerance : K) :
    (empty objective tolerance).Truthful :=
  ⟨⟨(shaped_empty objective tolerance).toRectangular, rfl, rfl, nofun⟩, nofun⟩

/-- The program of a draft has its flags lowered. -/
theorem Draft.truthful_program {K : Type} [Scalar K] {d : Draft K} (tolerance : K)
    (h : ∀ c ∈ d.constraints, c.2.2.length = d.unknowns.length) :
    (d.program tolerance).Truthful := by
  rw [program_eq]
  refine ⟨⟨⟨?_, ?_⟩, ?_, ?_, nofun⟩, nofun⟩
  · simp [Program.m]
  · intro row hrow
    obtain ⟨c, hc, rfl⟩ := List.mem_map.1 hrow
    simpa [Program.n] using h c hc
  · simp [Program.m]
  · simp [Program.n]

/-- The programs that a history begins with: one without variables and constraints, or one
    that is read from a text. -/
def Program.Begins (p : Program Float) : Prop :=
  (∃ objective tolerance, create objective tolerance = .ok p) ∨
    ∃ tolerance source, ofStored tolerance source = .ok p

namespace Program
variable {p : Program Float}

theorem truthful_of_ofValue {tolerance : Except ArgumentFault Float} {v : Value}
    (h : ofValue tolerance v = .ok p) : p.Truthful := by
  rw [ofValue, Decode.draft_eq, Check.guarded] at h
  cases hfailed : Check.firstFailed (Decode.documentChecks v) with
  | some c =>
    rw [hfailed] at h
    cases h
  | none =>
    rw [hfailed] at h
    cases tolerance with
    | error e => cases h
    | ok t =>
      cases h
      exact Draft.truthful_program t
        (Decode.rows_draftOf ((Decode.schema_iff_firstFailed v).2 hfailed))

theorem Begins.truthful (h : p.Begins) : p.Truthful := by
  rcases h with ⟨objective, tolerance, h⟩ | ⟨tolerance, source, h⟩
  · cases objective with
    | error e => cases h
    | ok o =>
      cases tolerance with
      | error e => cases h
      | ok t =>
        cases h
        exact truthful_empty o t
  · cases source with
    | string t =>
      rw [ofStored] at h
      cases hread : Json.read Json.mostLevels t with
      | error e =>
        rw [hread] at h
        cases h
      | ok v =>
        rw [hread] at h
        exact truthful_of_ofValue h
    | _ => cases h

end Program

namespace Session
variable {K : Type} [Scalar K] {I : Program K → Prop} {limit : ℕ} {ops : List (Operation K)}
    {s : Session K}

/-- An operation leaves the invariant where it stops. -/
theorem everywhere_after (hinv : Program.Invariant I) {op : Operation K} (hs : s.Everywhere I)
    (hop : op.Unmodified) (hleft : (∀ p r, I p → I (p.appendRelation r)) ∨ op.ValuesRead limit s) :
    ((op.perform limit).after s).Everywhere I := by
  have h := Checked.perform_keeps hinv op hs hop hleft
  unfold Action.after
  cases hperform : op.perform limit s with
  | error e s' => exact (h.of_error hperform).1
  | ok a s' => exact (h.of_ok hperform).1

theorem everywhere_run (hinv : Program.Invariant I) (hs : s.Everywhere I)
    (hops : ∀ op ∈ ops, op.Unmodified)
    (hleft : (∀ p r, I p → I (p.appendRelation r)) ∨
      ∀ x ∈ trace limit ops s, x.1.ValuesRead limit x.2) :
    (run limit ops s).Everywhere I :=
  run_invariant hs fun x hx hI => everywhere_after hinv hI (hops _ (mem_of_mem_trace hx))
    (hleft.imp_right fun h => h x hx)

/-- In every history the parts of the program fit together. No operation that follows fails in one
    of its checks, nor does a reading of the basis, of the point or of the tableau; an operation may
    fail only in ways of its own. Every constraint is read back. -/
theorem shaped_run {p : Program Float} (hp : p.Begins) (limit : ℕ) {ops : List (Operation Float)}
    (hops : ∀ op ∈ ops, op.Unmodified) {s : Session Float} (hs : run limit ops (start p) = s) :
    s.program.Shaped ∧
    (∀ (op : Operation Float) (limit : ℕ), op.Unmodified →
      Checked.perform limit op s = op.perform limit s ∧
      ∀ e s', op.perform limit s = .error e s' → op.MayFail e) ∧
    (∀ nonbasic,
      Checked.basicVariables s.program nonbasic =
        (s.program.basicVariables nonbasic).mapError .basis ∧
      Checked.solution s.program nonbasic = (s.program.solution nonbasic).mapError .basis) ∧
    Checked.decimalTableau s.program = .ok s.program.decimalTableau ∧
    s.program.constraints.length = s.program.m := by
  have hleft : ∀ (p : Program Float) r, p.Shaped → (p.appendRelation r).Shaped :=
    fun p r h => h.appendRelation r
  have hI : s.Everywhere Program.Shaped :=
    hs ▸ everywhere_run Program.invariant_shaped (everywhere_start hp.truthful.shaped) hops
      (.inl hleft)
  have hshaped := hI.1
  refine ⟨hshaped, ?_, ?_, Checked.decimalTableau_eq hshaped, hshaped.length_constraints⟩
  · intro op limit hop
    have hkeeps : Checked.Keeps Program.Shaped op.MayFail (Checked.perform limit op)
        (op.perform limit) s _ :=
      Checked.perform_keeps Program.invariant_shaped op hI hop (.inl hleft)
    exact ⟨hkeeps.1, fun e s' hfail => (hkeeps.of_error hfail).2⟩
  · exact fun nonbasic =>
      ⟨Checked.basicVariables_eq hshaped.toRectangular, Checked.solution_eq hshaped⟩

/-- A right-hand side that is not read, a pivot outside the tableau, and a snapshot under a name
    that is not there; between them a variable, a constraint and the standard form. -/
def failures : List (Operation Float) :=
  [.addVariable (.ok 1) (.ok []) (.ok .unrestricted),
    .addConstraint (.ok .equal) (.error .malformed) (.ok [1]),
    .addConstraint (.ok .greaterEqual) (.ok 3) (.ok [1]), .pivot 1 0,
    .isolated [.standardize, .restore "tableau"], .standardize]

/-- A relation is left over, but no part is missing. -/
theorem shaped_run_failures : (∀ op ∈ failures, op.Unmodified) ∧
    (run 0 failures (start (.empty .minimize 0))).program.Shaped ∧
    (run 0 failures (start (.empty .minimize 0))).program.relations.length = 2 ∧
    (run 0 failures (start (.empty .minimize 0))).program.m = 1 := by
  have hops : ∀ op ∈ failures, op.Unmodified := by
    simp [failures, Operation.Unmodified, Operation.AllUnmodified]
  exact ⟨hops,
    (shaped_run (.inl ⟨.ok .minimize, .ok 0, rfl⟩) 0 hops
      rfl).1, by decide +kernel, by decide +kernel⟩

/-- In every history in which no constraint is left without its right-hand side there is one
    relation for every constraint, and a flag is set only where it may be. -/
theorem truthful_run {p : Program Float} (hp : p.Begins) (limit : ℕ) {ops : List (Operation Float)}
    (hops : ∀ op ∈ ops, op.Unmodified)
    (hread : ∀ x ∈ trace limit ops (start p), x.1.ValuesRead limit x.2) {s : Session Float}
    (hs : run limit ops (start p) = s) :
    s.program.relations.length = s.program.m ∧ s.program.restrictions.length = s.program.n ∧
    (s.program.standard = true → s.program.objective = .maximize ∧
      (∀ r ∈ s.program.relations, r = .equal) ∧
      ∀ r ∈ s.program.restrictions, r = .nonNegative) ∧
    (s.program.simplex = true → s.program.standard = true) := by
  have hI : s.Everywhere Program.Truthful :=
    hs ▸ everywhere_run Program.invariant_truthful (everywhere_start hp.truthful) hops (.inr hread)
  have htruthful := hI.1
  refine ⟨htruthful.relations, htruthful.restrictions, fun hstandard => ?_, htruthful.prepared⟩
  obtain ⟨hobjective, hequal, hnonnegative⟩ := htruthful.truthful hstandard
  exact ⟨hobjective, hequal, hnonnegative⟩

/-- A free variable and an inequality, brought into standard form and
    prepared for the first phase. -/
def preparations : List (Operation Float) :=
  [.addVariable (.ok 1) (.ok []) (.ok .unrestricted),
    .addConstraint (.ok .greaterEqual) (.ok 3) (.ok [1]),
    .addVariable (.error .malformed) (.ok [1]) (.ok .nonNegative), .prepare true]

/-- Both flags are set, and what they say is true. -/
theorem truthful_run_preparations :
    (run 0 preparations (start (.empty .minimize 0))).program.standard = true ∧
    (run 0 preparations (start (.empty .minimize 0))).program.simplex = true ∧
    (run 0 preparations (start (.empty .minimize 0))).program.objective = .maximize ∧
    (run 0 preparations (start (.empty .minimize 0))).program.relations.length = 1 := by
  have hops : ∀ op ∈ preparations, op.Unmodified := by simp [preparations, Operation.Unmodified]
  have hread : ∀ x ∈ trace 0 preparations (start (.empty .minimize 0)), x.1.ValuesRead 0 x.2 := by
    simp [preparations, trace, Operation.ValuesRead]
  obtain ⟨hlength, -, hstandard, -⟩ :=
    truthful_run (.inl ⟨.ok .minimize, .ok 0, rfl⟩) 0 hops hread rfl
  have hm : (run 0 preparations (start (.empty .minimize 0))).program.m = 1 := by decide +kernel
  have hflag : (run 0 preparations (start (.empty .minimize 0))).program.standard = true := by
    decide +kernel
  exact ⟨hflag, by decide +kernel, (hstandard hflag).1, hlength.trans hm⟩

end Session

end Simplex
