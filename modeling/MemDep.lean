import MemDep.AccessGraph.Json
import MemDep.Analysis
import MemDep.Failure
import MemDep.PointsTo.Json
import MemDep.PointsTo.Validate
import MemDep.Proofs.AccessGraph.Building
import MemDep.Proofs.AccessGraph.Partition
import MemDep.Proofs.Analysis.Apart
import MemDep.Proofs.Analysis.Convergence
import MemDep.Proofs.Analysis.Equations
import MemDep.Proofs.Analysis.History
import MemDep.Proofs.Analysis.LifeCycle
import MemDep.Proofs.Analysis.Questions
import MemDep.Proofs.Analysis.Refusals
import MemDep.Proofs.Analysis.Scans
import MemDep.Proofs.Analysis.Termination
import MemDep.Proofs.Analysis.Widening
import MemDep.Proofs.ByteSet.Canonical
import MemDep.Proofs.Checked.Closure
import MemDep.Proofs.Checked.Consistency
import MemDep.Proofs.Checked.Phis
import MemDep.Proofs.Json.Graphs
import MemDep.Proofs.PointsTo.Building
import MemDep.Proofs.PointsTo.Connectivity
import MemDep.Proofs.PointsTo.Edges
import MemDep.Proofs.PointsTo.Operands
import MemDep.Proofs.PointsTo.WellFormed
import MemDep.Proofs.Reaching.Overwriting
import MemDep.Settings.File
import MemDep.Settings.Json
