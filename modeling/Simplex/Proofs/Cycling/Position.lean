import Mathlib.Data.Finset.Basic
import Simplex.Proofs.Tableau.Search
/-! The positions of a search. A search goes from a tableau with a feasible basis to the next,
    by one pivot at a time, until a step has nothing to exchange. It comes to its end if and
    only if such a step is among its positions, however many steps it is allowed; otherwise
    the steps are used up. -/

namespace Simplex

/-- A tableau of a search, with its nonbasic variables. -/
structure Position where
  tableau : Program ℚ
  nonbasic : List ℤ

namespace Position
open Program

/-- The position after the next pivot, unless the search stops. -/
def next? (x : Position) : Option Position :=
  match x.tableau.move x.nonbasic with
  | .ok (.exchange row entering leaving) =>
    some ⟨x.tableau.pivot row entering, IndexSet.exchange entering leaving x.nonbasic⟩
  | _ => none

/-- The position after `k` steps. Where the search stops it stays. -/
def after (x : Position) : ℕ → Position
  | 0 => x
  | k + 1 => (x.after k).next?.getD (x.after k)

/-- The search makes `k` pivots at least. -/
def Lasts (x : Position) (k : ℕ) : Prop := ∀ i < k, (x.after i).next? ≠ none

/-- The columns outside the nonbasic variables. -/
def basis (x : Position) : Finset ℕ :=
  (Finset.range x.tableau.n).filter fun j => (j : ℤ) ∉ x.nonbasic

/-- The columns outside the nonbasic variables are a feasible canonical basis: a unit column without
    cost for every row and no others, and no right-hand side is negative. -/
structure Canonical (x : Position) : Prop where
  rectangular : x.tableau.Rectangular
  tolerance : x.tableau.tolerance = 0
  basis : ∃ B, x.tableau.Basis x.nonbasic B
  nonneg : ∀ i < x.tableau.m, 0 ≤ x.tableau.value i

/-- `y` comes after `x` by bringing `e` into the basis at row `r`. -/
structure Step (x y : Position) (B : ℕ → ℕ) (r e : ℕ) : Prop where
  basis : x.tableau.Basis x.nonbasic B
  move : x.tableau.move x.nonbasic = .ok (.exchange r e (B r))
  enters : x.tableau.Enters x.nonbasic r e
  tableau : y.tableau = x.tableau.pivot r e
  nonbasic : y.nonbasic = IndexSet.exchange e (B r) x.nonbasic

section Steps
variable {x y : Position}

theorem Canonical.sharp (h : x.Canonical) : x.tableau.Sharp :=
  ⟨h.tolerance.ge, h.tolerance ▸ zero_lt_one⟩

/-- A position either stops the search or leads to another one. -/
theorem Canonical.next?_cases (h : x.Canonical) :
    (x.next? = none ∧ ∃ o, x.tableau.move x.nonbasic = .ok (.stop o)) ∨
    ∃ y B r e, x.next? = some y ∧ x.Step y B r e := by
  obtain ⟨B, hB⟩ := h.basis
  rcases hB.move_cases h.sharp with ⟨hstop, _⟩ | ⟨e, hstop, _⟩ | ⟨r, e, hmove, he⟩
  · exact .inl ⟨by simp only [next?, hstop], _, hstop⟩
  · exact .inl ⟨by simp only [next?, hstop], _, hstop⟩
  · refine .inr ⟨⟨x.tableau.pivot r e, IndexSet.exchange e (B r) x.nonbasic⟩, B, r, e, ?_, ?_⟩
    · simp only [next?, hmove]
    · exact ⟨hB, hmove, he, rfl, rfl⟩

theorem Canonical.exists_step (h : x.Canonical) (hy : x.next? = some y) :
    ∃ B r e, x.Step y B r e := by
  rcases h.next?_cases with ⟨hnone, _⟩ | ⟨y', B, r, e, hsome, hstep⟩
  · rw [hnone] at hy
    cases hy
  · rw [hsome] at hy
    cases hy
    exact ⟨B, r, e, hstep⟩

/-- A pivot leads to a feasible canonical basis again. -/
theorem Canonical.step (h : x.Canonical) {B : ℕ → ℕ} {r e : ℕ} (hstep : x.Step y B r e) :
    y.Canonical := by
  have he := hstep.enters
  have ha := (he.entry_pos h.sharp).ne'
  refine ⟨?_, ?_, ⟨Function.update B r e, ?_⟩, ?_⟩
  · rw [hstep.tableau]
    exact rectangular_pivot h.rectangular he.row
  · rw [hstep.tableau]
    exact h.tolerance
  · rw [hstep.tableau, hstep.nonbasic]
    exact hstep.basis.pivot h.rectangular he.row he.column ha he.nonbasic
  · intro i hi
    rw [hstep.tableau] at hi ⊢
    rw [m_pivot h.rectangular] at hi
    exact he.value_pivot_nonneg h.rectangular h.tolerance h.nonneg hi

theorem Canonical.after (h : x.Canonical) (k : ℕ) : (x.after k).Canonical := by
  induction k with
  | zero => exact h
  | succ k ih =>
    cases hnext : (x.after k).next? with
    | none => rwa [Position.after, hnext]
    | some y =>
      obtain ⟨B, r, e, hstep⟩ := ih.exists_step hnext
      rw [Position.after, hnext]
      exact ih.step hstep

theorem after_succ (hy : x.next? = some y) : ∀ k, x.after (k + 1) = y.after k
  | 0 => by rw [after, after, after, hy, Option.getD_some]
  | k + 1 => by rw [after, after_succ hy k, after]

theorem after_add (x : Position) (i : ℕ) : ∀ k, x.after (i + k) = (x.after i).after k
  | 0 => rfl
  | k + 1 => by rw [← Nat.add_assoc, after, after_add x i k, after]

/-- Every position holds a tableau of the program with which the search starts. -/
theorem Canonical.tableauOf_after (h : x.Canonical) (k : ℕ) :
    TableauOf x.tableau (x.after k).tableau := by
  induction k with
  | zero => exact .refl h.rectangular
  | succ k ih =>
    cases hnext : (x.after k).next? with
    | none => rwa [Position.after, hnext]
    | some y =>
      obtain ⟨B, r, e, hstep⟩ := (h.after k).exists_step hnext
      rw [Position.after, hnext, Option.getD_some, hstep.tableau]
      exact ih.pivot hstep.enters.row (hstep.enters.entry_pos (h.after k).sharp).ne'

theorem Canonical.n_after (h : x.Canonical) (k : ℕ) : (x.after k).tableau.n = x.tableau.n :=
  (h.tableauOf_after k).n

/-- Within the pivots that the search makes, each position is a step after the one before. -/
theorem Lasts.step (h : x.Canonical) {k i : ℕ} (hk : x.Lasts k) (hi : i < k) :
    ∃ B r e, (x.after i).Step (x.after (i + 1)) B r e := by
  obtain ⟨y, hy⟩ := Option.ne_none_iff_exists'.1 (hk i hi)
  obtain ⟨B, r, e, hstep⟩ := (h.after i).exists_step hy
  refine ⟨B, r, e, ?_⟩
  rwa [Position.after, hy]

end Steps

end Position

namespace Action
open Program
variable {s : Session ℚ} {nonbasic : List ℤ}

theorem search_of_stop {o : Outcome} (h : s.program.move nonbasic = .ok (.stop o)) (limit : ℕ) :
    Action.search (limit + 1) nonbasic s = .ok o s := by
  simp only [Action.search, bind, EStateM.bind, program, h, basis, pure, EStateM.pure]

theorem search_of_exchange {r e l : ℕ} (h : s.program.move nonbasic = .ok (.exchange r e l))
    (hr : r < s.program.m) (he : e < s.program.n) :
    ∃ s', s'.program = s.program.pivot r e ∧ ∀ limit,
      Action.search (limit + 1) nonbasic s =
        Action.search limit (IndexSet.exchange e l nonbasic) s' := by
  refine ⟨{ s with
    program := s.program.pivot r e
    journal := .exchanged r e l (s.program.pivot r e) ::
      .pivoted (s.program.entry r e)
        (Scalar.lt (Scalar.abs (s.program.entry r e)) s.program.tolerance) r e :: s.journal },
          rfl, ?_⟩
  intro limit
  simp only [Action.search, bind, EStateM.bind, program, h, basis, pure, EStateM.pure,
    pivot_eq hr he, note]

/-- The search ends within its steps if and only if one of its first positions stops it. -/
theorem search_ok_iff {x : Position} (hx : x.Canonical) : ∀ (limit : ℕ) (s : Session ℚ),
    s.program = x.tableau →
      ((∃ o s', Action.search limit x.nonbasic s = .ok o s') ↔
        ∃ k < limit, (x.after k).next? = none) := by
  intro limit
  -- an exchange leads to another position, so the induction is over all of them
  induction limit generalizing x with
  | zero =>
    intro s _
    constructor
    · rintro ⟨o, s', h⟩
      cases h
    · rintro ⟨k, hk, _⟩
      exact absurd hk k.not_lt_zero
  | succ limit ih =>
    intro s hs
    rcases hx.next?_cases with ⟨hnone, o, hmove⟩ | ⟨y, B, r, e, hsome, hstep⟩
    · refine ⟨fun _ => ⟨0, limit.succ_pos, hnone⟩, fun _ => ⟨o, s, search_of_stop ?_ limit⟩⟩
      rwa [hs]
    · have he := hstep.enters
      obtain ⟨s', hs', hsearch⟩ :=
        search_of_exchange (hs ▸ hstep.move) (hs ▸ he.row) (hs ▸ he.column)
      have hrest := ih (hx.step hstep) s' (by rw [hs', hs, hstep.tableau])
      rw [hstep.nonbasic, ← hsearch limit] at hrest
      rw [hrest]
      constructor
      · rintro ⟨k, hk, hnone⟩
        exact ⟨k + 1, Nat.succ_lt_succ hk, by rwa [Position.after_succ hsome]⟩
      · rintro ⟨k, hk, hnone⟩
        cases k with
        | zero =>
          rw [Position.after, hsome] at hnone
          cases hnone
        | succ k =>
          rw [Position.after_succ hsome] at hnone
          exact ⟨k, Nat.lt_of_succ_lt_succ hk, hnone⟩

/-- A search that does not end uses up its steps. -/
theorem search_outOfSteps {x : Position} (hx : x.Canonical) (hlasts : ∀ k, x.Lasts k) (limit : ℕ)
    {s : Session ℚ} (hs : s.program = x.tableau) :
    ∃ s', Action.search limit x.nonbasic s = .error .outOfSteps s' := by
  have hrun := Runs.search (t := 0) (I := fun p is => Position.Canonical ⟨p, is⟩)
    (fun p is hp => ?step) limit x.nonbasic s (hs ▸ hx)
  case step =>
    refine ⟨hp.tolerance, ?_⟩
    rcases hp.next?_cases with ⟨_, hstop⟩ | ⟨y, B, r, e, _, hstep⟩
    · exact .inl hstop
    · have he := hstep.enters
      have hy := hp.step hstep
      refine .inr ⟨r, e, B r, hstep.move, he.row, he.column, ?_, ?_⟩
      · rw [abs_of_pos (he.entry_pos hp.sharp), ← hp.tolerance]
        exact he.entry
      · rwa [← hstep.tableau, ← hstep.nonbasic]
  cases hsearch : Action.search limit x.nonbasic s with
  | error e s' => exact ⟨s', by rw [hrun.of_error hsearch]⟩
  | ok o s' =>
    obtain ⟨k, _, hnone⟩ := (search_ok_iff hx limit s hs).1 ⟨o, s', hsearch⟩
    exact absurd hnone (hlasts (k + 1) k k.lt_succ_self)

end Action

end Simplex
