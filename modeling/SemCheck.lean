import SemCheck.LogFormat
import SemCheck.TypeTable
import SemCheck.Unit
import SemCheck.Proofs.Alias.Completeness
import SemCheck.Proofs.Flow.Barrier
import SemCheck.Proofs.Flow.Confined
import SemCheck.Proofs.Flow.FinallyReads
import SemCheck.Proofs.Flow.Reassignment
import SemCheck.Proofs.Flow.Regrouping
import SemCheck.Proofs.Flow.Soundness
import SemCheck.Proofs.Guard.Bookkeeping
import SemCheck.Proofs.Guard.Queries
import SemCheck.Proofs.Model.Rendering
import SemCheck.Proofs.Node.Creation
import SemCheck.Proofs.Node.Sweep
import SemCheck.Proofs.Occurrence.Joints
import SemCheck.Proofs.Occurrence.Variance
import SemCheck.Proofs.Options
import SemCheck.Proofs.Recursion.Agreement
import SemCheck.Proofs.Repair.Survivors
import SemCheck.Proofs.Text.Filling
import SemCheck.Proofs.Ty.Composition
import SemCheck.Proofs.Ty.Grouping
import SemCheck.Proofs.Unit.Phases
