import Simplex.Operation
import Simplex.Argument.Reading
import Simplex.Codec.Encode
import Simplex.Codec.Decode
import Simplex.Tableau.Display
import Simplex.Optimum.Exact
import Simplex.Sample
import Simplex.Main
import Simplex.Proofs.Safety
import Simplex.Proofs.Cycling.Termination
import Simplex.Proofs.SearchContract
import Simplex.Proofs.StandardColumns
import Simplex.Proofs.Number.Bits
import Simplex.Proofs.Number.Rounding
import Simplex.Proofs.Addition
import Simplex.Proofs.Codec.Schema
import Simplex.Proofs.Number.Shortest
import Simplex.Proofs.Json.Number
import Simplex.Proofs.Json.ReadBack
import Simplex.Proofs.Codec.RoundTrip
import Simplex.Proofs.Tableau.PivotRun
import Simplex.Proofs.Tableau.Equivalence
import Simplex.Proofs.Tableau.Extraction
import Simplex.Proofs.Change
import Simplex.Proofs.Checked.Lookup
import Simplex.Proofs.Checked.Action
import Simplex.Proofs.Checked.Keeps
import Simplex.Proofs.History
import Simplex.Proofs.Checked.Sound
import Simplex.Proofs.Checked.Operations
import Simplex.Proofs.Invariants
import Simplex.Proofs.FailedAddition
import Simplex.Proofs.Flags
import Simplex.Proofs.Interleaving
import Simplex.Proofs.GeneralSolver
import Simplex.Proofs.Isolation.Matrix
import Simplex.Proofs.Isolation.Copy
import Simplex.Proofs.Isolation.Dependence
import Simplex.Proofs.Isolation.Block
import Simplex.Proofs.Phases.Feasibility
import Simplex.Proofs.Tableau.Rank
import Simplex.Proofs.Phases.Restart
import Simplex.Proofs.Tableau.Inverse
import Simplex.Proofs.Number.Convergents
import Simplex.Proofs.Number.Double
import Simplex.Proofs.Number.Nearest
import Simplex.Proofs.Number.ShortFraction
