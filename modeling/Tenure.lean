import Tenure.Analysis
import Tenure.Annotation
import Tenure.Ascending
import Tenure.BindingSet
import Tenure.CallGraph
import Tenure.Config
import Tenure.Config.Json
import Tenure.Config.Reader
import Tenure.Decimal.Double
import Tenure.Decimal.Reader
import Tenure.Decimal.Shortest
import Tenure.Diagnostic
import Tenure.Diagnostic.Registry
import Tenure.Diagnostic.Render
import Tenure.Diagnostic.SourceSpan
import Tenure.Diagnostic.Suggestion
import Tenure.Exclusivity
import Tenure.Facts
import Tenure.Fault
import Tenure.Forward
import Tenure.Graph.Components
import Tenure.Graph.Search
import Tenure.Hint
import Tenure.Ir.Block
import Tenure.Ir.Builder
import Tenure.Ir.Func
import Tenure.Ir.Nesting
import Tenure.Ir.Printer
import Tenure.Ir.Program
import Tenure.Ir.Validation
import Tenure.Ir.Value
import Tenure.Linearity
import Tenure.Liveness
import Tenure.Mode
import Tenure.Placement
import Tenure.Placement.Escape
import Tenure.Placement.FreePoints
import Tenure.Placement.Holders
import Tenure.Placement.Plan
import Tenure.Placement.Region
import Tenure.Proofs.Analysis.Accounted
import Tenure.Proofs.Analysis.Alike
import Tenure.Proofs.Analysis.DeadCode
import Tenure.Proofs.Analysis.Findings
import Tenure.Proofs.Analysis.Honest
import Tenure.Proofs.Analysis.Least
import Tenure.Proofs.Analysis.Limit
import Tenure.Proofs.Analysis.Local
import Tenure.Proofs.Analysis.Order
import Tenure.Proofs.Analysis.Result
import Tenure.Proofs.Analysis.Rounds
import Tenure.Proofs.Analysis.Run
import Tenure.Proofs.Analysis.Signatures
import Tenure.Proofs.Analysis.Stopped
import Tenure.Proofs.CallGraph
import Tenure.Proofs.Diagnostic.Preview
import Tenure.Proofs.Exclusivity
import Tenure.Proofs.Exclusivity.CarriedLoans
import Tenure.Proofs.Exclusivity.Conflicts
import Tenure.Proofs.Facts
import Tenure.Proofs.Fault
import Tenure.Proofs.Forward
import Tenure.Proofs.Forward.Moments
import Tenure.Proofs.Forward.Reducible
import Tenure.Proofs.Forward.Settling
import Tenure.Proofs.Graph.ComponentSearch
import Tenure.Proofs.Graph.Components
import Tenure.Proofs.Graph.Search
import Tenure.Proofs.Graph.Settle
import Tenure.Proofs.Hint
import Tenure.Proofs.Indexed.Checks
import Tenure.Proofs.Indexed.Modes
import Tenure.Proofs.Indexed.Pipeline
import Tenure.Proofs.Indexed.Plan
import Tenure.Proofs.Ir.Builder
import Tenure.Proofs.Ir.LooseRegions
import Tenure.Proofs.Ir.Mentions
import Tenure.Proofs.Ir.Paths
import Tenure.Proofs.Ir.Regions
import Tenure.Proofs.Ir.Valid
import Tenure.Proofs.Ir.WellFormed
import Tenure.Proofs.Linearity
import Tenure.Proofs.Linearity.Arrival
import Tenure.Proofs.Linearity.Evaluation
import Tenure.Proofs.Linearity.Rest
import Tenure.Proofs.Linearity.UseAfterMove
import Tenure.Proofs.Liveness
import Tenure.Proofs.Liveness.Exact
import Tenure.Proofs.Liveness.Paths
import Tenure.Proofs.Placement
import Tenure.Proofs.Placement.EscapeOrder
import Tenure.Proofs.Placement.Escapes
import Tenure.Proofs.Placement.FreeOrder
import Tenure.Proofs.Placement.FreedAgain
import Tenure.Proofs.Placement.Held
import Tenure.Proofs.Placement.Holders
import Tenure.Proofs.Placement.Innermost
import Tenure.Proofs.Placement.LaterUse
import Tenure.Proofs.Placement.Lingering
import Tenure.Proofs.Placement.Lost
import Tenure.Proofs.Placement.Ownership
import Tenure.Proofs.Placement.Planned
import Tenure.Proofs.Placement.RegionExits
import Tenure.Proofs.Placement.Rest
import Tenure.Proofs.Report
import Tenure.Proofs.Signature
import Tenure.Proofs.Signature.History
import Tenure.Proofs.Signature.Table
import Tenure.Proofs.Solution
import Tenure.Proofs.Solution.Monotone
import Tenure.Proofs.Solution.Reads
import Tenure.Proofs.Solution.Running
import Tenure.Proofs.Table
import Tenure.Proofs.Text.Lines
import Tenure.Proofs.Text.Offset
import Tenure.Proofs.Usage
import Tenure.Proofs.Usage.Access
import Tenure.Proofs.Usage.Keywords
import Tenure.Proofs.Usage.References
import Tenure.Report
import Tenure.Signature
import Tenure.Signature.Table
import Tenure.Solution
import Tenure.Text.Columns
import Tenure.Text.Emoji
import Tenure.Text.Extending
import Tenure.Text.Ligature
import Tenure.Text.Lines
import Tenure.Text.Offset
import Tenure.Text.Picture
import Tenure.Text.Printable
import Tenure.Text.Width
import Tenure.Usage
import Tenure.Usage.Access
import Tenure.Violation
import Tenure.Proofs.Graph.Stack
import Tenure.Proofs.Ir.Order
import Tenure.Proofs.Ir.Walks
import Tenure.Proofs.Hint.Depth
import Tenure.Proofs.Placement.Passes
