import Piecework.Text.Blank
import Piecework.Text.Integer
import Piecework.Decimal.Shortest
import Piecework.Decimal.Layout
import Piecework.Decimal.Reading
import Piecework.Expr.Operator
import Piecework.Expr.Tree
import Piecework.Expr.Parser
import Piecework.Expr.Frontier
import Piecework.Time.Calendar
import Piecework.Time.Instant
import Piecework.Time.Reading
import Piecework.Json.Value
import Piecework.Json.Token
import Piecework.Json.Node
import Piecework.Json.Format
import Piecework.Json.Record
import Piecework.Error
import Piecework.Settings
import Piecework.Task
import Piecework.Task.Format
import Piecework.Refill
import Piecework.Store.Row
import Piecework.Store.Basic
import Piecework.Store.Edit
import Piecework.Store.Schema
import Piecework.Store.Opening
import Piecework.Store.Call
import Piecework.Store.Program
import Piecework.Store.Site
import Piecework.Schedule.Pass
import Piecework.Schedule.Dispatcher
import Piecework.Worker.Message
import Piecework.Worker.Agenda
import Piecework.Worker.Agent
import Piecework.Worker.Script
import Piecework.Worker.Remote
import Piecework.Http.Target
import Piecework.Http.Message
import Piecework.Http.MediaType
import Piecework.Http.Percent
import Piecework.Http.Url
import Piecework.Server.Service
import Piecework.Server.Endpoint
import Piecework.Server.Basic
import Piecework.Server.Pool
import Piecework.Proofs.Expr.Agreement
import Piecework.Proofs.Expr.Derivation
import Piecework.Proofs.Expr.Frontier
import Piecework.Proofs.Expr.PostOrder
import Piecework.Proofs.Decimal.Numeral
import Piecework.Proofs.Decimal.Parts
import Piecework.Proofs.Decimal.Interval
import Piecework.Proofs.Decimal.Rounding
import Piecework.Proofs.Decimal.Nearest
import Piecework.Proofs.Decimal.Digits
import Piecework.Proofs.Decimal.RoundTrip
import Piecework.Proofs.Decimal.Whole
import Piecework.Proofs.Json.Scanning
import Piecework.Proofs.Json.Document
import Piecework.Proofs.Json.Format
import Piecework.Proofs.Json.Record
import Piecework.Proofs.Worker.Message
import Piecework.Proofs.Worker.Loop
import Piecework.Proofs.Worker.Agenda
import Piecework.Proofs.Worker.Script
import Piecework.Proofs.Settings
import Piecework.Proofs.Expr.Grammar
import Piecework.Proofs.Expr.Display
import Piecework.Proofs.Expr.Failure
import Piecework.Proofs.Expr.Elsewhere
import Piecework.Proofs.Expr.Prefix
import Piecework.Proofs.Expr.Bytes
import Piecework.Proofs.Expr.Machine
import Piecework.Proofs.Expr.Calls
import Piecework.Proofs.Time.Calendar
import Piecework.Proofs.Time.Columns
import Piecework.Proofs.Time.Stamp
import Piecework.Proofs.Refill
import Piecework.Proofs.Folding
import Piecework.Proofs.Store.Rows
import Piecework.Proofs.Store.Effects
import Piecework.Proofs.Store.Columns
import Piecework.Proofs.Store.History
import Piecework.Proofs.Store.Schema
import Piecework.Proofs.Store.Opening
import Piecework.Proofs.Store.Oldest
import Piecework.Proofs.Schedule.Tracking
import Piecework.Proofs.Schedule.Standing
import Piecework.Proofs.Schedule.Plan
import Piecework.Proofs.Store.Meets
import Piecework.Proofs.Store.Fate
import Piecework.Proofs.Schedule.Undisturbed
import Piecework.Proofs.Schedule.Issue
import Piecework.Proofs.Schedule.Repeated
import Piecework.Proofs.Schedule.Passes
import Piecework.Proofs.Schedule.Calls
import Piecework.Proofs.Schedule.Isolation
import Piecework.Proofs.Schedule.Alone
import Piecework.Proofs.Schedule.Settled
import Piecework.Proofs.Schedule.Kept
import Piecework.Proofs.Schedule.Sequence
import Piecework.Proofs.Schedule.Hands
import Piecework.Proofs.Schedule.Accounting
import Piecework.Proofs.System.Basic
import Piecework.Proofs.System.Value
import Piecework.Proofs.System.Sequence
import Piecework.Proofs.System.Trace
import Piecework.Proofs.System.Finality
import Piecework.Proofs.System.Leftovers
import Piecework.Proofs.System.Recovery
import Piecework.Proofs.Server.Handover
import Piecework.Proofs.Server.Crew
import Piecework.Proofs.Server.Redelivery
import Piecework.Proofs.Server.Survival
import Piecework.Proofs.Server.Privacy
import Piecework.Proofs.Server.Refusal
import Piecework.Proofs.Server.Intake
import Piecework.Proofs.Server.Workload
import Piecework.Proofs.Server.Completion
import Piecework.Proofs.Server.Loopback
import Piecework.Proofs.Server.Traffic
import Piecework.Proofs.Server.Bookkeeping
import Piecework.Proofs.Server.Pool
import Piecework.Proofs.Server.Quiescence
