import DesignSpace.Count
import DesignSpace.Divisors
import DesignSpace.Keyed
import DesignSpace.Arranged
import DesignSpace.Text.Blank
import DesignSpace.Decimal.Binary
import DesignSpace.Decimal.Scaled
import DesignSpace.Decimal.Shortest
import DesignSpace.Json.Token
import DesignSpace.Json.Value
import DesignSpace.Json.Reader
import DesignSpace.Subscript
import DesignSpace.Region
import DesignSpace.Forest
import DesignSpace.Design.Basic
import DesignSpace.Design.Check
import DesignSpace.Design.Listing
import DesignSpace.Design.Text
import DesignSpace.Metrics.Basic
import DesignSpace.Metrics.Table
import DesignSpace.Target.Basic
import DesignSpace.Target.Clock
import DesignSpace.Target.Text
import DesignSpace.Stages
import DesignSpace.Cost.Operation
import DesignSpace.Cost.Context
import DesignSpace.Cost.Memory
import DesignSpace.Cost.Loop
import DesignSpace.Compose
import DesignSpace.Estimate
import DesignSpace.Report
import DesignSpace.Parameter
import DesignSpace.Operator
import DesignSpace.Search.Frontier
import DesignSpace.Search.Level
import DesignSpace.Search.Explore
import DesignSpace.Search.Text
import DesignSpace.Disk
import DesignSpace.Workflow
import DesignSpace.CommandLine.Arguments
import DesignSpace.CommandLine.Help
import DesignSpace.CommandLine.Reply
import DesignSpace.Main
import DesignSpace.Proofs.Attempt
import DesignSpace.Proofs.Json.Tokens
import DesignSpace.Proofs.Divisors
import DesignSpace.Proofs.Keyed
import DesignSpace.Proofs.Stages
import DesignSpace.Proofs.Stages.Best
import DesignSpace.Proofs.Stages.Even
import DesignSpace.Proofs.Forest.Path
import DesignSpace.Proofs.Forest.Bare
import DesignSpace.Proofs.Forest.Renumber
import DesignSpace.Proofs.Estimate.Fresh
import DesignSpace.Proofs.Estimate.Depends
import DesignSpace.Proofs.Estimate.Plain
import DesignSpace.Proofs.Parameter.Write
import DesignSpace.Proofs.Parameter.Stale
import DesignSpace.Proofs.Design.Distinct
import DesignSpace.Proofs.Design.Walk
import DesignSpace.Proofs.Design.Rules
import DesignSpace.Proofs.Design.Records
import DesignSpace.Proofs.Parameter.Session
import DesignSpace.Proofs.Parameter.Admits
import DesignSpace.Proofs.Design.WellFormed
import DesignSpace.Proofs.Design.Traversal
import DesignSpace.Proofs.Design.Cycle
import DesignSpace.Proofs.Design.RoundTrip
import DesignSpace.Proofs.Design.Renumber
import DesignSpace.Proofs.Operator.Domain
import DesignSpace.Proofs.Operator.Ordered
import DesignSpace.Proofs.Search.Upkeep
import DesignSpace.Proofs.Search.Level
import DesignSpace.Proofs.Search.Explore
import DesignSpace.Proofs.Search.Feasible
import DesignSpace.Proofs.Estimate.Compose
import DesignSpace.Proofs.Estimate.Balanced
import DesignSpace.Proofs.Estimate.Copies
import DesignSpace.Proofs.Estimate.Promoted
import DesignSpace.Proofs.Estimate.Alone
import DesignSpace.Proofs.Estimate.Edited
import DesignSpace.Proofs.Estimate.Renumber
import DesignSpace.Proofs.Estimate.Chains
import DesignSpace.Proofs.Decimal.Order
import DesignSpace.Proofs.Decimal.Amount
import DesignSpace.Proofs.Estimate.Counted
import DesignSpace.Proofs.Estimate.Finer
import DesignSpace.Proofs.Estimate.Rearranged
import DesignSpace.Proofs.Estimate.Storage
import DesignSpace.Proofs.Estimate.Known
import DesignSpace.Proofs.Estimate.Footprint
import DesignSpace.Proofs.Estimate.Banks
import DesignSpace.Proofs.Estimate.Faster
import DesignSpace.Proofs.Estimate.Capacity
import DesignSpace.Proofs.Search.Levels
import DesignSpace.Proofs.Search.Writes
import DesignSpace.Proofs.Search.Latency
import DesignSpace.Proofs.Json.ReadBack
import DesignSpace.Proofs.Json.Gives
import DesignSpace.Proofs.Subscript
import DesignSpace.Proofs.Subscript.Reading
import DesignSpace.Proofs.Target
import DesignSpace.Proofs.Design.Expressible
import DesignSpace.Proofs.Parameter.Overwrite
import DesignSpace.Proofs.Parameter.Untouched
import DesignSpace.Proofs.Parameter.Apart
import DesignSpace.Proofs.Operator.Connected
import DesignSpace.Proofs.Parameter.Refused
import DesignSpace.Proofs.Parameter.Rewind
import DesignSpace.Proofs.Search.Upfront
import DesignSpace.Proofs.Search.Listed
import DesignSpace.Proofs.Guarded.Arithmetic
import DesignSpace.Proofs.Guarded.Divisors
import DesignSpace.Proofs.Guarded.Stages
import DesignSpace.Proofs.Guarded.Cost
import DesignSpace.Proofs.Guarded.Estimate
import DesignSpace.Proofs.Search.Course
import DesignSpace.Proofs.Search.Frontier
import DesignSpace.Proofs.Search.Outcome
import DesignSpace.Proofs.Search.Account
import DesignSpace.Proofs.Search.Order
import DesignSpace.Proofs.Search.Committed
import DesignSpace.Proofs.Search.Resting
import DesignSpace.Proofs.Search.Ranking
import DesignSpace.Proofs.Search.Maximal
import DesignSpace.Proofs.Search.Again
import DesignSpace.Proofs.Search.Retry
import DesignSpace.Proofs.Search.Latest
import DesignSpace.Proofs.Design.Writable
import DesignSpace.Proofs.Workflow
