import StellarDb.Lib.Keyspace
import StellarDb.Lib.Ownership
import StellarDb.Lib.Walks
import StellarDb.Lib.Run
import StellarDb.Lib.ByteOrder
import StellarDb.Lib.Paging
import StellarDb.Lib.Mirror
import StellarDb.Lib.Chunking
import StellarDb.Lib.BiMap
import StellarDb.Lib.Lines
import StellarDb.Lib.Joined
import StellarDb.Lib.Entries
import StellarDb.Value
import StellarDb.Encoding
import StellarDb.Encoding.Order
import StellarDb.Schema
import StellarDb.Schema.Collection
import StellarDb.Schema.CreateIndex
import StellarDb.Constraints.Unique
import StellarDb.Indexes.BTree
import StellarDb.Edges.Store
import StellarDb.Edges.Shape
import StellarDb.Edges.Consistency
import StellarDb.Database
import StellarDb.Calls
import StellarDb.Edges.Cascade
import StellarDb.Batch
import StellarDb.Batch.Outcome
import StellarDb.Batch.Net
import StellarDb.Indexes.Exact
import StellarDb.Constraints.Serial
import StellarDb.Batch.Rollback
import StellarDb.Batch.Documents
import StellarDb.Query.Eval
import StellarDb.Query.Predicate
import StellarDb.Query.Optimizer
import StellarDb.Query.Aggregate
import StellarDb.Indexes.Scan
import StellarDb.Indexes.Lookup
import StellarDb.Query.Execute
import StellarDb.Indexes.Threshold
import StellarDb.Transaction
import StellarDb.Transaction.Documents
import StellarDb.Transaction.Lookup
import StellarDb.Transaction.Edges
import StellarDb.Transaction.Commit
import StellarDb.Transaction.Delete
import StellarDb.Batch.Phases
import StellarDb.Transaction.Interleaved
import StellarDb.Schema.Manager
import StellarDb.Schema.Concurrent
import StellarDb.Json
import StellarDb.Indexes.External
import StellarDb.Indexes.Jobs
import StellarDb.Indexes.OrphanedBuilds
import StellarDb.Indexes.PhysicalNames
import StellarDb.Indexes.Recovery
import StellarDb.Indexes.Backfill
import StellarDb.Indexes.Vector
import StellarDb.Indexes.VectorMirror
import StellarDb.Indexes.VectorFiles
import StellarDb.Indexes.FullText
import StellarDb.Indexes.FullTextNames
import StellarDb.Indexes.Reindex
import StellarDb.Indexes.ReindexSteps
import StellarDb.Indexes.ReindexRace
import StellarDb.Server.DdlJobs
import StellarDb.Server.Cancel
import StellarDb.Server.Reconcile
import StellarDb.Auth.Policies
import StellarDb.Auth.Decisions
import StellarDb.Document
import StellarDb.Auth.ApiKey
import StellarDb.Auth.Credentials
import StellarDb.Auth.CredentialCalls
import StellarDb.Auth.Revocation
import StellarDb.Auth.Authenticate
import StellarDb.Lib.Serial
import StellarDb.Auth.Concurrent
import StellarDb.Lib.Levels
import StellarDb.Query.Traversal
import StellarDb.Query.TraversalLevels
import StellarDb.Query.TraversalGraph
import StellarDb.Query.TraversalWalks
import StellarDb.Query.TraversalSets
import StellarDb.Edges.Listing
import StellarDb.Edges.Keys
import StellarDb.Edges.FieldIndex
import StellarDb.Query.UnionScan
import StellarDb.Lib.Pull
import StellarDb.Query.Operators
import StellarDb.Query.Pipeline
import StellarDb.Lib.Window
import StellarDb.Query.SearchScan
import StellarDb.Query.Ast
import StellarDb.Query.ExtractAggregates
import StellarDb.Lib.Distinct
import StellarDb.Query.Comparison
import StellarDb.Query.KeyTexts
import StellarDb.Query.Membership
import StellarDb.Query.SearchOps
import StellarDb.Namespace
import StellarDb.Edges.History
import StellarDb.Lib.Words
import StellarDb.Query.Temporal
import StellarDb.Lib.Ranking
import StellarDb.Query.RankFusion
import StellarDb.Lib.Significant
import StellarDb.Encoding.Numbers
import StellarDb.Lib.Gaps
import StellarDb.Indexes.Analyzers
import StellarDb.Schema.Validate
import StellarDb.Schema.ValidateTwice
import StellarDb.Auth.LegacyMigration
import StellarDb.Auth.LegacyKeys
import StellarDb.Server.Admission
import StellarDb.Lib.MayPanic
import StellarDb.Edges.Codec
import StellarDb.Lib.Lockstep
import StellarDb.Query.ControlFlow
import StellarDb.Constraints.LockKeys
import StellarDb.Query.Fetch
import StellarDb.Query.ValueOrder
import StellarDb.Query.ValueText
import StellarDb.Query.GroupKeys
import StellarDb.Query.RowOrder
import StellarDb.Query.EvalPanics
import StellarDb.Lib.PrefixFree
import StellarDb.Encoding.Tags
import StellarDb.Encoding.IndexKeys
import StellarDb.Encoding.Scalars
import StellarDb.Encoding.PlainDecimals
import StellarDb.Query.FieldUpdate
import StellarDb.Query.Escapes
import StellarDb.Server.LimiterInvariant
import StellarDb.Session
