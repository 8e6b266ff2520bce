import SignalFlow.Catalog.Basic
import SignalFlow.Catalog.Definitions
import SignalFlow.Catalog.Parameters
import SignalFlow.Catalog.Portable
import SignalFlow.CommandLine.Answer
import SignalFlow.CommandLine.Request
import SignalFlow.Config
import SignalFlow.Decimal.Binary
import SignalFlow.Decimal.Layout
import SignalFlow.Decimal.Nearest
import SignalFlow.Decimal.Notation
import SignalFlow.Decimal.Scaled
import SignalFlow.Decimal.Shortest
import SignalFlow.Dict
import SignalFlow.Engine.Basic
import SignalFlow.Engine.Bus
import SignalFlow.Engine.Event
import SignalFlow.Engine.Session
import SignalFlow.Execution.Node
import SignalFlow.Execution.Tick
import SignalFlow.FileTree
import SignalFlow.Graph.Basic
import SignalFlow.Graph.Cycle
import SignalFlow.Graph.Order
import SignalFlow.Graph.Portable
import SignalFlow.Graph.Reach
import SignalFlow.Graph.Wiring
import SignalFlow.Indicator
import SignalFlow.Json.Basic
import SignalFlow.Json.Document
import SignalFlow.Json.Fields
import SignalFlow.Json.Lexer
import SignalFlow.Json.Numeral
import SignalFlow.Json.Printer
import SignalFlow.Json.Reader
import SignalFlow.Main
import SignalFlow.Market.Signal
import SignalFlow.Market.Tick
import SignalFlow.Market.Value
import SignalFlow.Plan.Basic
import SignalFlow.Plan.Compile
import SignalFlow.Plan.Kind
import SignalFlow.Proofs.Catalog.Definitions
import SignalFlow.Proofs.Catalog.Integers
import SignalFlow.Proofs.Catalog.Parameters
import SignalFlow.Proofs.Dict
import SignalFlow.Proofs.Engine.Books
import SignalFlow.Proofs.Engine.Bus
import SignalFlow.Proofs.Engine.Careers
import SignalFlow.Proofs.Engine.Delivery
import SignalFlow.Proofs.Engine.Deployments
import SignalFlow.Proofs.Engine.Events
import SignalFlow.Proofs.Engine.Failures
import SignalFlow.Proofs.Engine.Listening
import SignalFlow.Proofs.Engine.Liveness
import SignalFlow.Proofs.Engine.Names
import SignalFlow.Proofs.Engine.Rest
import SignalFlow.Proofs.Engine.Schedules
import SignalFlow.Proofs.Engine.Sessions
import SignalFlow.Proofs.Engine.Stopping
import SignalFlow.Proofs.Engine.Tasks
import SignalFlow.Proofs.Execution.Accounts
import SignalFlow.Proofs.Execution.Agreement
import SignalFlow.Proofs.Execution.Choices
import SignalFlow.Proofs.Execution.Copies
import SignalFlow.Proofs.Execution.Deadlines
import SignalFlow.Proofs.Execution.Firing
import SignalFlow.Proofs.Execution.Gates
import SignalFlow.Proofs.Execution.Handlers
import SignalFlow.Proofs.Execution.Holds
import SignalFlow.Proofs.Execution.Independence
import SignalFlow.Proofs.Execution.Isolation
import SignalFlow.Proofs.Execution.Observations
import SignalFlow.Proofs.Execution.Persistence
import SignalFlow.Proofs.Execution.Report
import SignalFlow.Proofs.Execution.Run
import SignalFlow.Proofs.Execution.Settled
import SignalFlow.Proofs.Execution.Signals
import SignalFlow.Proofs.Execution.Soundness
import SignalFlow.Proofs.Execution.Steps
import SignalFlow.Proofs.Execution.Storage
import SignalFlow.Proofs.Execution.Trails
import SignalFlow.Proofs.Execution.Turns
import SignalFlow.Proofs.Graph.Arcs
import SignalFlow.Proofs.Graph.Components
import SignalFlow.Proofs.Graph.Cycle
import SignalFlow.Proofs.Graph.Draining
import SignalFlow.Proofs.Graph.Order
import SignalFlow.Proofs.Graph.Portable
import SignalFlow.Proofs.Graph.Positions
import SignalFlow.Proofs.Graph.Reordering
import SignalFlow.Proofs.Graph.Search
import SignalFlow.Proofs.Graph.Walks
import SignalFlow.Proofs.Indicator
import SignalFlow.Proofs.Json.Fields
import SignalFlow.Proofs.Json.Integers
import SignalFlow.Proofs.Json.Lexing
import SignalFlow.Proofs.Json.Number
import SignalFlow.Proofs.Json.Numerals
import SignalFlow.Proofs.Json.Reading
import SignalFlow.Proofs.Json.Values
import SignalFlow.Proofs.Plan.Causal
import SignalFlow.Proofs.Plan.Compile
import SignalFlow.Proofs.Plan.Copies
import SignalFlow.Proofs.Plan.Kinds
import SignalFlow.Proofs.Plan.Links
import SignalFlow.Proofs.Plan.Ports
import SignalFlow.Proofs.Plan.Recovery
import SignalFlow.Proofs.Plan.Requests
import SignalFlow.Proofs.Plan.Routes
import SignalFlow.Proofs.Plan.Wiring
import SignalFlow.Proofs.Schema.Chain
import SignalFlow.Proofs.Schema.Circles
import SignalFlow.Proofs.Schema.Hydration
import SignalFlow.Proofs.Schema.Normal
import SignalFlow.Proofs.Schema.Registry
import SignalFlow.Proofs.Schema.Shape
import SignalFlow.Proofs.Schema.Stopovers
import SignalFlow.Proofs.StateStore
import SignalFlow.Proofs.StateStore.Namespaces
import SignalFlow.Proofs.Temporal.Binary64
import SignalFlow.Proofs.Temporal.Blob
import SignalFlow.Proofs.Temporal.Codec
import SignalFlow.Proofs.Temporal.EventRuns
import SignalFlow.Proofs.Temporal.HeldTime
import SignalFlow.Proofs.Temporal.Hold
import SignalFlow.Proofs.Temporal.Machine
import SignalFlow.Proofs.Temporal.Runs
import SignalFlow.Proofs.Temporal.Stamp
import SignalFlow.Proofs.Time.Calendar
import SignalFlow.Proofs.Time.Rfc3339
import SignalFlow.Proofs.Validation.Hydration
import SignalFlow.Proofs.Validation.Kinds
import SignalFlow.Proofs.Validation.Parameters
import SignalFlow.Proofs.Validation.Passes
import SignalFlow.Proofs.Validation.Removal
import SignalFlow.Proofs.Validation.Reordering
import SignalFlow.Proofs.Validation.Sinks
import SignalFlow.Proofs.Validation.WellFormed
import SignalFlow.Replay
import SignalFlow.Schema.Hydration
import SignalFlow.Schema.Registry
import SignalFlow.Schema.Shape
import SignalFlow.StateStore
import SignalFlow.Temporal.Blob
import SignalFlow.Temporal.Hold
import SignalFlow.Temporal.Machine
import SignalFlow.Temporal.Sequence
import SignalFlow.Temporal.Stamp
import SignalFlow.Time.Calendar
import SignalFlow.Time.Instant
import SignalFlow.Time.Rfc3339
import SignalFlow.Validation.Passes
import SignalFlow.Validation.Report
