import Simplex.Program.Basic
import Simplex.Fault
/-! A session: one program under work, the snapshots taken of it, and a journal of what happened. An
    action may fail part way; what it did up to then stays done, so a failure carries the session
    along. -/

namespace Simplex

/-- How a search can end. -/
inductive Outcome where
  /-- An optimum, with the variables that are zero in it. -/
  | optimal (nonbasic : List Int)
  | unbounded
  | infeasible
  deriving DecidableEq, Repr, Inhabited

/-- What an action reports beside its result. -/
inductive Event (K : Type) where
  /-- A pivot. Its element is small if it lies within the tolerance of zero. -/
  | pivoted (element : K) (small : Bool) (row column : Nat)
  /-- The auxiliary objective at the end of the first phase. -/
  | firstPhase (objective : K)
  /-- An artificial variable that is positive at the end of the first phase. -/
  | positiveArtificial (index : Nat)
  /-- The first phase has failed under absolute column weights and is run
      again under signed ones. -/
  | retry (ended : Outcome)
  /-- Constraints that follow from the others are dropped. -/
  | redundant (count : Nat)
  | secondPhase (m n : Nat)
  /-- A pivot of the search, with the tableau after it. -/
  | exchanged (row entering leaving : Nat) (after : Program K)

/-- A program under work. -/
structure Session (K : Type) where
  program : Program K
  /-- Snapshots by name, each of them a program. -/
  snapshots : List (String × Program K)
  /-- The variables that were zero at the latest optimum. -/
  lastNonbasic : List Int
  /-- What happened, the latest first. -/
  journal : List (Event K)

def Session.start {K : Type} (p : Program K) : Session K := ⟨p, [], [], []⟩

/-- A change to a session that may fail. -/
abbrev Action (K : Type) := EStateM Fault (Session K)

namespace Action
variable {K : Type}

/-- The program under work. -/
def program : Action K (Program K) := fun s => .ok s.program s

def setProgram (p : Program K) : Action K Unit := fun s => .ok () { s with program := p }

def change (f : Program K → Program K) : Action K Unit := fun s =>
  .ok () { s with program := f s.program }

def note (e : Event K) : Action K Unit := fun s => .ok () { s with journal := e :: s.journal }

/-- An argument, or the failure to read it. -/
def argument {α : Type} : Except ArgumentFault α → Action K α
  | .ok a => pure a
  | .error e => throw (.argument e)

/-- A fact about the basis, or the failure to find it. -/
def basis {α : Type} : Except BasisFault α → Action K α
  | .ok a => pure a
  | .error e => throw (.basis e)

/-- Runs an action and puts the program back as it was, also when the action fails. Snapshots taken
    and events noted on the way are kept. -/
def isolated {α : Type} (act : Action K α) : Action K α := fun s =>
  match act s with
  | .ok a after => .ok a { after with program := s.program }
  | .error e after => .error e { after with program := s.program }

/-- The session that an action leaves, whether it fails or not. -/
def after {α : Type} (act : Action K α) (s : Session K) : Session K :=
  match act s with
  | .ok _ s' => s'
  | .error _ s' => s'

@[simp] theorem program_after_isolated {α : Type} (act : Action K α) (s : Session K) :
    ((isolated act).after s).program = s.program := by
  simp only [after, isolated]
  cases act s <;> rfl

end Action

end Simplex
