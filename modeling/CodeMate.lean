import CodeMate.Framework.Run
import CodeMate.Framework.Redis
import CodeMate.Framework.Log
import CodeMate.Framework.Json
import CodeMate.Framework.Session
import CodeMate.Codec
import CodeMate.Verification
import CodeMate.Mcp.Router
import CodeMate.Framework.Base64
import CodeMate.Framework.Text
import CodeMate.Core.Kms
import CodeMate.Llm.Prompt
import CodeMate.Mcp.Plans
import CodeMate.Mcp.Calls
import CodeMate.Mcp.Approval
import CodeMate.Mcp.Gate
import CodeMate.Mcp.Records
import CodeMate.Ledger.Row
import CodeMate.Ledger.Atomic
import CodeMate.Ledger.Session
import CodeMate.Ledger.Consume
import CodeMate.Agent.State
import CodeMate.Agent.Executor
import CodeMate.Agent.Nodes
import CodeMate.Agent.RunRow
import CodeMate.Agent.Graph
import CodeMate.Agent.Course
import CodeMate.Agent.Counters
import CodeMate.Ledger.Delivery
import CodeMate.Agent.Evidence
import CodeMate.Agent.Policy
import CodeMate.Agent.Budgets
import CodeMate.Agent.Termination
import CodeMate.Agent.Repeats
import CodeMate.Agent.Dedup
import CodeMate.Lifecycle.Redelivery
import CodeMate.Lifecycle.Jobs
import CodeMate.Lifecycle.Exclusion
import CodeMate.Lifecycle.Terminal
import CodeMate.Framework.Map
import CodeMate.Framework.Lease
import CodeMate.Framework.Window
import CodeMate.Framework.Fallible
import CodeMate.Framework.Join
import CodeMate.Sandbox.Patches
import CodeMate.Sandbox.Git
import CodeMate.Sandbox.Workspace
import CodeMate.Sandbox.Site
import CodeMate.Sandbox.ExecutionStore
import CodeMate.Sandbox.ExecutionLease
import CodeMate.Sandbox.Interchange
import CodeMate.Sandbox.Cluster
import CodeMate.Sandbox.Fencing
import CodeMate.Sandbox.SingleUse
import CodeMate.Sandbox.Handlers
import CodeMate.Quota.Policy
import CodeMate.Quota.Reserve
import CodeMate.Quota.Rows
import CodeMate.Quota.Limits
import CodeMate.Quota.Concurrency
import CodeMate.Quota.Administration
import CodeMate.Quota.Cap
import CodeMate.Quota.Script
import CodeMate.Quota.Charging
import CodeMate.Quota.Slots
import CodeMate.Api.Identity
import CodeMate.Api.Replay
import CodeMate.Api.Trace
import CodeMate.Evaluation.Records
import CodeMate.Evaluation.Gate
import CodeMate.Evaluation.Soundness
import CodeMate.Evaluation.Datasets
import CodeMate.Evaluation.Snapshots
import CodeMate.Framework.Effect
import CodeMate.Indexing.Scan
import CodeMate.Indexing.Stores
import CodeMate.Indexing.Index
import CodeMate.Indexing.Undo
import CodeMate.Indexing.Rows
import CodeMate.Indexing.Built
import CodeMate.Indexing.Incremental
import CodeMate.Sandbox.Attempts
import CodeMate.Sandbox.FinalDiff
import CodeMate.Framework.Table
import CodeMate.Audit.Outbox
import CodeMate.Audit.Leases
import CodeMate.Audit.Attempts
import CodeMate.Operations.Circuit
import CodeMate.Operations.Evidence
import CodeMate.Registry.Server
import CodeMate.Registry.Revisions
import CodeMate.Framework.DenyOverrides
import CodeMate.Tenancy.Authorization
import CodeMate.Tenancy.Configs
import CodeMate.Tenancy.Delegation
import CodeMate.GitHub.Repair
import CodeMate.GitHub.Checkouts
import CodeMate.GitHub.Decisions
import CodeMate.Agent.Checkpointer
import CodeMate.Agent.CheckpointHistory
import CodeMate.Core.Envelopes
import CodeMate.Sandbox.Lines
import CodeMate.Sandbox.Hunks
import CodeMate.Sandbox.GitDiffs
import CodeMate.Llm.Extract
import CodeMate.Framework.Coverage
import CodeMate.Evaluation.Citations
import CodeMate.Framework.Ranking
import CodeMate.Retrieval.Fusion
import CodeMate.Retrieval.Context
import CodeMate.Retrieval.Pipeline
import CodeMate.Sandbox.PlaneSettings
import CodeMate.Sandbox.Retention
import CodeMate.Framework.FileSystem
import CodeMate.Sandbox.Reads
import CodeMate.Framework.Lex
import CodeMate.Sandbox.Archive
import CodeMate.Sandbox.Packing
import CodeMate.Sandbox.RoundTrip
import CodeMate.Sandbox.Confinement
import CodeMate.Framework.Disk
import CodeMate.Framework.JsonPath
import CodeMate.Mcp.Redaction
import CodeMate.Mcp.Egress
import CodeMate.Mcp.EgressClient
import CodeMate.Agent.History
import CodeMate.Indexing.Fallback
import CodeMate.Indexing.Numbering
import CodeMate.Indexing.Chunkers
import CodeMate.Indexing.Vue
import CodeMate.Evaluation.ChangedFiles
import CodeMate.Audit.Enqueue
import CodeMate.Core.Timeline
import CodeMate.Framework.Utf8
import CodeMate.Framework.Percent
import CodeMate.Frontend.AdminSession
import CodeMate.Frontend.Proxy
import CodeMate.Framework.Search
import CodeMate.Agent.ImportGraph
import CodeMate.Framework.Shell
import CodeMate.Sandbox.TestRuns
import CodeMate.Sandbox.TestBroker
