import AsyncSpread.Config.Saved
import AsyncSpread.Calls.Saved
import AsyncSpread.Metrics.Saved
import AsyncSpread.Plan.Saved
import AsyncSpread.Project.Pipeline
import AsyncSpread.Proofs.Calls.Reordered
import AsyncSpread.Proofs.Calls.Saved
import AsyncSpread.Proofs.Calls.Spread
import AsyncSpread.Proofs.Config.Excluded
import AsyncSpread.Proofs.Disk.Files
import AsyncSpread.Proofs.Plan.Restricted
import AsyncSpread.Proofs.Project.Alone
import AsyncSpread.Proofs.Project.Defined
import AsyncSpread.Proofs.Project.Dry
import AsyncSpread.Proofs.Project.Interleaved
import AsyncSpread.Proofs.Project.Parts
import AsyncSpread.Proofs.Project.Profiled
import AsyncSpread.Proofs.Project.Averages
import AsyncSpread.Proofs.Python.Innermost
import AsyncSpread.Proofs.Rewrite.Charged
import AsyncSpread.Proofs.Rewrite.Idle
import AsyncSpread.Proofs.Rewrite.Imported
import AsyncSpread.Proofs.Rewrite.Settled
import AsyncSpread.Proofs.Rewrite.Wrapped
import AsyncSpread.Proofs.Source.Corrected
import AsyncSpread.Proofs.Source.Forgotten
import AsyncSpread.Proofs.Trace.Encoded
import AsyncSpread.Proofs.Trace.Filtered
import AsyncSpread.Proofs.Disk.Components
import AsyncSpread.Proofs.Project.Namesakes
import AsyncSpread.Proofs.Project.Listed
import AsyncSpread.Proofs.Rewrite.LineEnds
import AsyncSpread.Proofs.Rewrite.Markers
import AsyncSpread.Proofs.Rewrite.Merged
import AsyncSpread.Proofs.Trace.Literal
