import DesignTokens.Color.Basic
import DesignTokens.Color.Light
import DesignTokens.Color.Literal
import DesignTokens.Color.Model
import DesignTokens.Command.Arguments
import DesignTokens.Command.Run
import DesignTokens.Decimal.Nearest
import DesignTokens.Decimal.Reader
import DesignTokens.Decimal.Shortest
import DesignTokens.Decimal.Text
import DesignTokens.Dependency.Graph
import DesignTokens.Dependency.Order
import DesignTokens.Digest
import DesignTokens.Emit
import DesignTokens.Engine
import DesignTokens.Expr.Basic
import DesignTokens.Expr.Document
import DesignTokens.Expr.Evaluate
import DesignTokens.Files
import DesignTokens.Issue
import DesignTokens.Json.Basic
import DesignTokens.Json.Number
import DesignTokens.Json.Parser
import DesignTokens.Json.Printer
import DesignTokens.Json.Record
import DesignTokens.Json.Written
import DesignTokens.Load
import DesignTokens.Main
import DesignTokens.Order.Cycle
import DesignTokens.Order.Diagram
import DesignTokens.Order.Graph
import DesignTokens.Order.Reduction
import DesignTokens.Order.Triple
import DesignTokens.Order.View
import DesignTokens.Proofs.Alias.Complete
import DesignTokens.Proofs.Alias.Equations
import DesignTokens.Proofs.Alias.Outcome
import DesignTokens.Proofs.Alias.Redeclare
import DesignTokens.Proofs.Alias.Resolution
import DesignTokens.Proofs.Cycle
import DesignTokens.Proofs.Dependency.Affected
import DesignTokens.Proofs.Dependency.Cycle
import DesignTokens.Proofs.Dependency.Graph
import DesignTokens.Proofs.Dependency.Order
import DesignTokens.Proofs.Engine.Commit
import DesignTokens.Proofs.Engine.Full
import DesignTokens.Proofs.Engine.Incremental
import DesignTokens.Proofs.Engine.Named
import DesignTokens.Proofs.Engine.Override
import DesignTokens.Proofs.Engine.Run
import DesignTokens.Proofs.Engine.Tracked
import DesignTokens.Proofs.Expr.Evaluate
import DesignTokens.Proofs.Hasse
import DesignTokens.Proofs.Json.Leaves
import DesignTokens.Proofs.Json.Numeral
import DesignTokens.Proofs.Json.Reread
import DesignTokens.Proofs.Order.Closed
import DesignTokens.Proofs.Order.Cycle
import DesignTokens.Proofs.Order.Graph
import DesignTokens.Proofs.Order.Reduction
import DesignTokens.Proofs.Order.Reported
import DesignTokens.Proofs.Report
import DesignTokens.Proofs.Rule.Gating
import DesignTokens.Proofs.Rule.Holds
import DesignTokens.Proofs.Rule.Participants
import DesignTokens.Proofs.Search
import DesignTokens.Proofs.SortedMap
import DesignTokens.Proofs.Text.Pieces
import DesignTokens.Proofs.Token.Ends
import DesignTokens.Proofs.Token.Placed
import DesignTokens.Proofs.Token.Substitute
import DesignTokens.Quantity
import DesignTokens.Report
import DesignTokens.Rule.Checker
import DesignTokens.Rule.Comparison
import DesignTokens.Rule.Contrast
import DesignTokens.Rule.CrossAxis
import DesignTokens.Rule.Monotonic
import DesignTokens.Rule.Threshold
import DesignTokens.RuleSet
import DesignTokens.Search
import DesignTokens.Snapshot
import DesignTokens.SortedMap
import DesignTokens.Text.Blank
import DesignTokens.Text.Hex
import DesignTokens.Text.Pieces
import DesignTokens.Token.Merge
import DesignTokens.Token.Override
import DesignTokens.Token.Placeholder
import DesignTokens.Token.Resolution
import DesignTokens.Token.Substitute
import DesignTokens.Token.Tree
import DesignTokens.Token.Value
import DesignTokens.Version
import DesignTokens.Proofs.Token.Overridden
import DesignTokens.Proofs.Decimal.Bits
import DesignTokens.Proofs.Decimal.Nearest
import DesignTokens.Proofs.Decimal.Shortest
import DesignTokens.Proofs.Decimal.Text
import DesignTokens.Proofs.Quantity
import DesignTokens.Proofs.Rule.Size
import DesignTokens.Proofs.Dependency.Counters
import DesignTokens.Proofs.Dependency.Walk
import DesignTokens.Proofs.Dependency.Leftover
import DesignTokens.Proofs.Json.Pretty
import DesignTokens.Proofs.Files
import DesignTokens.Proofs.Load
import DesignTokens.Proofs.Command.Run
import DesignTokens.Proofs.Order.Around
import DesignTokens.Proofs.Decimal.Order
import DesignTokens.Proofs.Rule.Monotonic
import DesignTokens.Proofs.Expr.Bounds
import DesignTokens.Proofs.Expr.Replay
import DesignTokens.Proofs.Expr.Operators
import DesignTokens.Proofs.Expr.Silent
import DesignTokens.Proofs.Expr.Kinds
import DesignTokens.Proofs.Expr.Document
import DesignTokens.Proofs.Token.Positions
import DesignTokens.Proofs.Token.Placeholder
import DesignTokens.Proofs.Token.Merge
import DesignTokens.Proofs.Token.Composite
import DesignTokens.Proofs.Token.Assign
import DesignTokens.Proofs.Token.Rejected
import DesignTokens.Proofs.Quantity.Scan
import DesignTokens.Proofs.Order.Lines
import DesignTokens.Proofs.Order.Identifiers
import DesignTokens.Proofs.Order.Flowchart
import DesignTokens.Proofs.Order.Description
import DesignTokens.Proofs.Text.Blank
import DesignTokens.Proofs.Order.Under
import DesignTokens.Proofs.Color.Lightness
import DesignTokens.Proofs.Snapshot
import DesignTokens.Proofs.Emit.Block
import DesignTokens.Proofs.Emit
import DesignTokens.Proofs.Rule.Conditional
import DesignTokens.Proofs.Summary
