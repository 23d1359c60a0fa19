import PointsTo.Main
import PointsTo.Proofs.Evaluation.Arguments
import PointsTo.Proofs.Evaluation.Circular
import PointsTo.Proofs.Evaluation.Containers
import PointsTo.Proofs.Evaluation.Monotone
import PointsTo.Proofs.Flow.Captures
import PointsTo.Proofs.Flow.LastPart
import PointsTo.Proofs.Flow.Terminators
import PointsTo.Proofs.Hierarchy.ResolutionOrder
import PointsTo.Proofs.Program.Agreement
import PointsTo.Proofs.Program.BoundHeap
import PointsTo.Proofs.Program.DeadCode
import PointsTo.Proofs.Program.ExceptionFlow
import PointsTo.Proofs.Program.Isolation
import PointsTo.Proofs.Program.OperandOrder
import PointsTo.Proofs.Program.Stability
import PointsTo.Proofs.Program.StatementSteps
import PointsTo.Proofs.Program.Temporaries
import PointsTo.Proofs.Program.WorklistOrder
import PointsTo.Proofs.Rendering
import PointsTo.Proofs.Scope.Evaluated
import PointsTo.Proofs.Solver.Height
import PointsTo.Proofs.Tree.RoundTrip
import PointsTo.Proofs.Value.Semilattice
import PointsTo.Value.Exchange
