import Lour.Lib.System
import Lour.Lib.Interleaving
import Lour.Lib.Isolation
import Lour.Lib.Fallible
import Lour.Lib.Python
import Lour.Lib.JsonText
import Lour.Lib.Numerals
import Lour.Lib.JsonReader
import Lour.Lib.Lines
import Lour.Lib.StateGraph
import Lour.Lib.Checkpoint
import Lour.Lib.References
import Lour.Lib.Window
import Lour.Lib.Redis
import Lour.Lib.OrderedDict
import Lour.Lib.Ranking
import Lour.Lib.Doubles
import Lour.Lib.Conversions
import Lour.Lib.Format
import Lour.Core.Policy
import Lour.Core.Meet
import Lour.Core.Counters
import Lour.Core.Metrics
import Lour.Tools.Registry
import Lour.Tools.Gate
import Lour.Tools.Mcp
import Lour.Tools.CodeExec
import Lour.Tools.Schema
import Lour.Tools.Cleaning
import Lour.Tools.Rendering
import Lour.Memory.Context
import Lour.Memory.ShortTerm
import Lour.Memory.Eviction
import Lour.Memory.Lineage
import Lour.Memory.Loss
import Lour.Memory.Manager
import Lour.Memory.Concurrent
import Lour.Memory.LongTerm
import Lour.Memory.Consolidation
import Lour.Memory.Dedup
import Lour.Agents.State
import Lour.Agents.Deps
import Lour.Agents.Budget
import Lour.Agents.Act
import Lour.Agents.Answers
import Lour.Agents.Turn
import Lour.Agents.Output
import Lour.Agents.Nodes
import Lour.Agents.Graphs
import Lour.Agents.Enforcement
import Lour.Agents.Loop
import Lour.Agents.ToolCap
import Lour.Agents.Thread
import Lour.Gateway.Streaming
import Lour.Gateway.StreamRun
import Lour.Gateway.Routing
import Lour.Gateway.Sse
import Lour.Gateway.Sessions
import Lour.Gateway.Approvals
import Lour.Rag.Chunking
import Lour.Rag.Corpus
import Lour.Rag.Ingestion
import Lour.Rag.Replacement
import Lour.Rag.Wellformed
import Lour.Rag.Consistency
import Lour.Rag.Failure
import Lour.Rag.Provenance
import Lour.Rag.RawText
import Lour.Rag.Survival
import Lour.Rag.Versions
import Lour.Rag.Sizes
import Lour.Rag.Splitting
import Lour.Rag.Coverage
import Lour.Rag.Retrieval
import Lour.Embeddings.Cache
import Lour.Embeddings.Sparse
import Lour.Reranker.Local
import Lour.Rag.MultiQuery
import Lour.Agents.Rounds
import Lour.Agents.Tokens
import Lour.Agents.Verdict
import Lour.Agents.Stop
import Lour.Skills.Spec
import Lour.Skills.Inputs
import Lour.Skills.Registry
import Lour.Skills.Running
import Lour.Rag.Words
import Lour.Rag.Joining
import Lour.Rag.QueryTransform
import Lour.Rag.Grouping
import Lour.Skills.Router
import Lour.Tools.Audit
import Lour.Llm.Cloud
import Lour.Llm.CloudTools
import Lour.Memory.Isolation
import Lour.Memory.Ledger
import Lour.Tools.McpStartup
import Lour.Skills.Invocation
import Lour.Lib.Utf8
import Lour.Rag.CodeLoader
import Lour.Lib.Regex
import Lour.Rag.Markdown
import Lour.Rag.Headings
import Lour.Rag.Outline
import Lour.Lib.JsonOrder
import Lour.Lib.JsonLiterals
import Lour.Agents.LoopDetection
import Lour.Agents.Unattended
import Lour.Agents.Completion
import Lour.Agents.Conversation
import Lour.Tools.FileSystem
import Lour.Lib.Detours
import Lour.Lib.Files
import Lour.Lib.Mutex
import Lour.Lib.Monitor
import Lour.Lib.Tally
import Lour.Lib.Base64
import Lour.Lib.Custody
import Lour.Sandbox.Docker
import Lour.Gateway.Access
