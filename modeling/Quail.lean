import Quail.Pages.Retention
import Quail.Prefix.Borrow
import Quail.Admission.Delivery
import Quail.Admission.Budget
import Quail.Logical.Normalize
import Quail.Lib.PrefixTree
import Quail.Labels.Greedy
import Quail.Labels.Ties
import Quail.Copies.Operators
import Quail.Logical.Normalize
import Quail.Lib.PrefixTree
import Quail.Labels.Greedy
import Quail.Labels.Ties
import Quail.Copies.Operators
import Quail.Copies.Expansion
import Quail.Copies.Reduced
import Quail.Copies.Answers
import Quail.Copies.Pairs
import Quail.Copies.Joins
import Quail.Admission.GroupRuns
import Quail.Pages.KVArena
import Quail.Pages.Pools
import Quail.Pages.KVCore
import Quail.Sae.MaxPooling
import Quail.Sae.Slots
import Quail.Sae.Maxima
import Quail.Server.Records
import Quail.Lib.Pareto
import Quail.Planner.LeftDeep
import Quail.Planner.Frontier
import Quail.Planner.JoinOrder
import Quail.Planner.Walk
import Quail.Lib.Argsort
import Quail.Relational.Order
import Quail.Relational.Window
import Quail.Relational.Rewrites
import Quail.Lib.Topological
import Quail.Physical.Graph
import Quail.Physical.Pipelines
import Quail.Physical.Grouping
import Quail.Physical.Runner
import Quail.Physical.Turns
import Quail.Lib.Blocks
import Quail.Lib.Fewest
import Quail.Relational.Unnest
import Quail.Planner.FilterLimit
import Quail.Lib.NaturalJoin
import Quail.Recombine.Declaration
import Quail.Recombine.Survivors
import Quail.Logical.Expressions
import Quail.Logical.Nodes
import Quail.Planner.ProjectionPushdown
import Quail.Joins.RowGroups
import Quail.Joins.PartnerLists
import Quail.Joins.LivePairs
import Quail.Logical.Builder
import Quail.Logical.PlacedPlan
import Quail.Server.Durability
import Quail.Server.Scheduler
import Quail.Server.RowOps
import Quail.Server.RunOne
import Quail.Server.Returns
import Quail.Baselines.FilterSequence
import Quail.Baselines.FilterTurns
import Quail.Baselines.FilterRuns
import Quail.Labels.Paths
import Quail.Labels.Visible
import Quail.Server.Answers
import Quail.Server.Streaming
import Quail.Lib.UndoLog
import Quail.Pages.Phases
import Quail.Pages.SlotStore
import Quail.Pages.PlanUndo
import Quail.Pages.Restored
import Quail.Extract.Constraint
import Quail.Lib.Speculation
import Quail.Extract.Verified
import Quail.Extract.Blocks
import Quail.Extract.Decoder
import Quail.Extract.Agree
import Quail.Extract.Splits
import Quail.Extract.Running
import Quail.Decode.Groups
import Quail.Decode.Reads
import Quail.Decode.Executor
import Quail.Decode.Sharing
import Quail.Pages.Priced
import Quail.Pages.Calls
import Quail.Pages.Evicting
import Quail.Cost.Drafts
import Quail.Logical.Literals
import Quail.Lib.Sequencing
import Quail.Planner.FilterOrder
import Quail.Admission.Headroom
import Quail.Lib.Rounding
import Quail.Relational.Aggregates
import Quail.Cost.Packing
import Quail.Lib.Networks
import Quail.Planner.ExactSurvivors
import Quail.Lib.Contiguous
import Quail.Relational.Integers
import Quail.Relational.WindowColumns
import Quail.Lib.Waiting
import Quail.Readout.Packing
import Quail.Readout.Groups
import Quail.Readout.Report
import Quail.Server.Changes
import Quail.Lib.NearestCut
import Quail.Planner.Shards
import Quail.Lib.PySlice
import Quail.Tokens.Concat
import Quail.Tokens.Suffixes
import Quail.Lib.Utf8
import Quail.Lib.Cells
import Quail.Lib.Ragged
import Quail.Tokens.Offsets
import Quail.Tokens.TokenSpan
import Quail.Extract.HeldPrefix
import Quail.Lib.TreeMass
import Quail.Labels.Scores
import Quail.Planner.FilterPushdown
import Quail.Planner.BalancedShards
import Quail.Distributed.Coordinator
import Quail.Distributed.Execution
import Quail.Physical.Codec
import Quail.Physical.RoundTrip
import Quail.Physical.Accepted
import Quail.Physical.GraphCodec
import Quail.Pages.Moves
import Quail.Pages.Runs
import Quail.Admission.ChunkBudget
import Quail.Extract.SqueezedText
