import StreamQuery.Catalog
import StreamQuery.Channel.Basic
import StreamQuery.Channel.Session
import StreamQuery.CommandLine.Arguments
import StreamQuery.CommandLine.Directory
import StreamQuery.CommandLine.Run
import StreamQuery.Config.Definition
import StreamQuery.Config.RunConfig
import StreamQuery.Csv.Load
import StreamQuery.Csv.Record
import StreamQuery.Expr.Basic
import StreamQuery.Expr.Scalar
import StreamQuery.Failure
import StreamQuery.Graph
import StreamQuery.Graph.Call
import StreamQuery.Json.Basic
import StreamQuery.Json.Decode
import StreamQuery.Json.Expr
import StreamQuery.Json.Plan
import StreamQuery.Json.Printer
import StreamQuery.Json.Reader
import StreamQuery.Json.Schema
import StreamQuery.Json.Text
import StreamQuery.Main
import StreamQuery.Operator.Basic
import StreamQuery.Operator.Trial
import StreamQuery.Plan.Basic
import StreamQuery.Plan.Tree
import StreamQuery.Query.Assembly
import StreamQuery.Query.Executor
import StreamQuery.Query.Network
import StreamQuery.Query.Result
import StreamQuery.Row
import StreamQuery.Schema
import StreamQuery.Schema.Heading
import StreamQuery.SipHash
import StreamQuery.Text.Basic
import StreamQuery.Text.Utf8
import StreamQuery.Types.Factory
import StreamQuery.Types.Resolver
import StreamQuery.Types.Scope
import StreamQuery.Value
import StreamQuery.Wiring
import StreamQuery.Proofs.Operator.Stream
import StreamQuery.Proofs.Expr.Width
import StreamQuery.Proofs.Plan.Derivation
import StreamQuery.Proofs.Plan.Meaning
import StreamQuery.Proofs.Plan.Path
import StreamQuery.Proofs.Channel.Slot
import StreamQuery.Proofs.Query.Layout
import StreamQuery.Proofs.Query.Sound
import StreamQuery.Proofs.Query.Step
import StreamQuery.Proofs.Query.Delivery
import StreamQuery.Proofs.Query.Start
import StreamQuery.Proofs.Query.Healthy
import StreamQuery.Proofs.Query.Work
import StreamQuery.Proofs.Query.Progress
import StreamQuery.Proofs.Query.Serving
import StreamQuery.Proofs.Query.Session
import StreamQuery.Proofs.Query.Acceptance
import StreamQuery.Proofs.Query.Answer
import StreamQuery.Proofs.Query.Liveness
import StreamQuery.Proofs.Query.Width
import StreamQuery.Proofs.Channel.Exchange
import StreamQuery.Proofs.Types.Build
import StreamQuery.Proofs.Types.Unfold
import StreamQuery.Proofs.Channel.Calls
import StreamQuery.Proofs.Json.Token
import StreamQuery.Proofs.Json.Read
import StreamQuery.Proofs.Json.Decode
import StreamQuery.Proofs.Plan.Made
import StreamQuery.Proofs.Json.Plan
import StreamQuery.Proofs.Expr.ThreeValued
import StreamQuery.Proofs.Expr.Defect
import StreamQuery.Proofs.Expr.Evaluation
import StreamQuery.Proofs.Expr.Laws
import StreamQuery.Proofs.Value.Order
import StreamQuery.Proofs.Expr.Comparison
import StreamQuery.Proofs.Expr.Typing
import StreamQuery.Proofs.Operator.Carry
import StreamQuery.Proofs.Query.Carry
import StreamQuery.Proofs.Query.Typing
import StreamQuery.Proofs.Query.Script
import StreamQuery.Proofs.Query.Cancellation
import StreamQuery.Proofs.Types.Expansion
import StreamQuery.Proofs.Config.Columns
import StreamQuery.Proofs.Query.Retype
import StreamQuery.Proofs.CommandLine.Order
import StreamQuery.Proofs.Csv.Load
import StreamQuery.Proofs.Channel.Cause
import StreamQuery.Proofs.Operator.Course
import StreamQuery.Proofs.Types.Failure
import StreamQuery.Proofs.Plan.Root
import StreamQuery.Proofs.Query.Course
import StreamQuery.Proofs.Json.Nesting
import StreamQuery.Proofs.Lookup
import StreamQuery.Proofs.Plan.Entries
import StreamQuery.Proofs.Json.Acceptance
import StreamQuery.Proofs.Query.Renaming
import StreamQuery.Proofs.Json.Traversal
import StreamQuery.Proofs.Types.Active
import StreamQuery.Proofs.Types.Tour
import StreamQuery.Channel.Registry
import StreamQuery.Proofs.Channel.Traffic
import StreamQuery.Proofs.Channel.Registry
import StreamQuery.Proofs.Types.Account
import StreamQuery.Proofs.Types.Thread
import StreamQuery.Proofs.Types.History
import StreamQuery.Proofs.Csv.Conform
import StreamQuery.Proofs.Query.Stop
import StreamQuery.Proofs.Row.Unordered
import StreamQuery.Proofs.Graph.Calls
import StreamQuery.Proofs.Schema.Heading
import StreamQuery.Proofs.Text.Parts
import StreamQuery.Proofs.Config.Definition
