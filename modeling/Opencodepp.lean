import Opencodepp.Library.Admission
import Opencodepp.Library.ByteString
import Opencodepp.Library.OrderedMap
import Opencodepp.Library.FileSystem
import Opencodepp.Library.Program
import Opencodepp.Library.Cursor
import Opencodepp.Library.Layout
import Opencodepp.Library.Trace
import Opencodepp.Library.Pairing
import Opencodepp.Library.Links
import Opencodepp.Library.Keyed
import Opencodepp.Library.Rows
import Opencodepp.Core.Error
import Opencodepp.Core.EventLoop
import Opencodepp.Core.Task
import Opencodepp.Config.Schema
import Opencodepp.Util.Json
import Opencodepp.Util.JsonRoundTrip
import Opencodepp.Util.JsonCounts
import Opencodepp.Util.JsonGrammar
import Opencodepp.Util.JsonStrings
import Opencodepp.Util.JsonTexts
import Opencodepp.Util.Base64
import Opencodepp.Msg.Message
import Opencodepp.Msg.Tokens
import Opencodepp.Msg.Codec
import Opencodepp.Msg.CodecRejection
import Opencodepp.Msg.WireLayout
import Opencodepp.Msg.WireAcceptance
import Opencodepp.Msg.MessageJson
import Opencodepp.Store.MemStore
import Opencodepp.Store.SqliteStore
import Opencodepp.Store.Ideal
import Opencodepp.Store.MemRefinement
import Opencodepp.Store.SqliteRefinement
import Opencodepp.Store.Agreement
import Opencodepp.Store.Deletion
import Opencodepp.Memory.Summarizer
import Opencodepp.Memory.Entry
import Opencodepp.Library.Ring
import Opencodepp.Memory.Scope
import Opencodepp.Memory.WorkspaceMemory
import Opencodepp.Memory.Upsert
import Opencodepp.Memory.Recycling
import Opencodepp.Memory.SessionMemory
import Opencodepp.Memory.Isolation
import Opencodepp.Memory.Recall
import Opencodepp.Memory.Resumption
import Opencodepp.Provider.Interface
import Opencodepp.Provider.Wire
import Opencodepp.Provider.OpenAi
import Opencodepp.Provider.Anthropic
import Opencodepp.Provider.Gemini
import Opencodepp.Provider.Factory
import Opencodepp.Provider.Catalog
import Opencodepp.Prompt.Context
import Opencodepp.Prompt.Decisions
import Opencodepp.Prompt.Budget
import Opencodepp.Prompt.Registry
import Opencodepp.Net.Policy
import Opencodepp.Net.Http
import Opencodepp.Net.Sse
import Opencodepp.Net.Offline
import Opencodepp.Net.Pool
import Opencodepp.Net.HttpParser
import Opencodepp.Net.HttpSplit
import Opencodepp.Net.Chunked
import Opencodepp.Tools.Tool
import Opencodepp.Tools.Sandbox
import Opencodepp.Tools.Write
import Opencodepp.Tools.Defaults
import Opencodepp.Library.Shell
import Opencodepp.Tools.Git
import Opencodepp.Tools.Patch
import Opencodepp.Verify.Gate
import Opencodepp.Verify.Impact
import Opencodepp.Agent.States
import Opencodepp.Agent.Intent
import Opencodepp.Agent.Loop
import Opencodepp.Agent.Session
import Opencodepp.App.Engine
import Opencodepp.App.Assembly
import Opencodepp.Agent.Scripted
import Opencodepp.Agent.Frame
import Opencodepp.Agent.Network
import Opencodepp.Agent.Rounds
import Opencodepp.Agent.ToolPhase
import Opencodepp.Agent.Lifecycle
import Opencodepp.Agent.Budget
import Opencodepp.Agent.Cancel
import Opencodepp.Agent.History
import Opencodepp.Agent.Projections
import Opencodepp.Agent.Dispatch
import Opencodepp.Agent.Safety
import Opencodepp.Agent.Replay
import Opencodepp.Agent.Retry
import Opencodepp.Agent.Target
import Opencodepp.Agent.Blocking
import Opencodepp.Agent.Repetition
import Opencodepp.Agent.PatchProposal
import Opencodepp.Agent.Options
import Opencodepp.Abi.HostConfig
import Opencodepp.Abi.Events
import Opencodepp.Abi.Handle
import Opencodepp.Abi.Run
import Opencodepp.Library.Splice
import Opencodepp.Library.LineBuffer
import Opencodepp.Library.Transition
import Opencodepp.Library.Incremental
import Opencodepp.Tools.Confinement
import Opencodepp.Tools.Lines
import Opencodepp.Tools.PatchTrace
import Opencodepp.Tools.PatchFrame
import Opencodepp.Tools.PatchApply
import Opencodepp.Tools.HunkText
import Opencodepp.Tools.Changes
import Opencodepp.Tools.UnifiedDiff
import Opencodepp.Tools.PatchReverse
import Opencodepp.Library.Ranges
import Opencodepp.Graph.Source
import Opencodepp.Graph.Symbols
import Opencodepp.Graph.Index
import Opencodepp.Graph.Representation
import Opencodepp.Graph.CallGraph
import Opencodepp.Graph.Endpoints
import Opencodepp.Graph.Agreement
import Opencodepp.Graph.Cache
import Opencodepp.Provider.OpenAiStream
import Opencodepp.Library.Tracks
import Opencodepp.Provider.Stitching
import Opencodepp.Provider.AnthropicStream
import Opencodepp.Provider.GeminiStream
import Opencodepp.Provider.MessageEnds
import Opencodepp.Provider.Fragmentation
import Opencodepp.Agent.Aside
import Opencodepp.Agent.AttemptRule
import Opencodepp.Agent.Deliveries
import Opencodepp.Agent.Bookkeeping
import Opencodepp.Agent.UsageReport
import Opencodepp.Agent.Terminator
import Opencodepp.Provider.ToolBlocks
import Opencodepp.Agent.WirePairing
import Opencodepp.Agent.CallIds
import Opencodepp.Agent.ErrorFrames
import Opencodepp.Agent.StoredSession
import Opencodepp.Library.Loop
import Opencodepp.Library.Wildcard
import Opencodepp.Tools.Glob
import Opencodepp.Library.Xorshift
import Opencodepp.Net.Backoff
import Opencodepp.Tools.Read
import Opencodepp.Library.Brackets
import Opencodepp.Library.Positions
import Opencodepp.Verify.Syntax
import Opencodepp.Verify.Lexing
import Opencodepp.Verify.Nesting
import Opencodepp.Verify.Positions
import Opencodepp.Verify.Survival
import Opencodepp.Net.ContentLength
import Opencodepp.Net.FrameCap
import Opencodepp.Library.Ration
import Opencodepp.Graph.ChangeContext
import Opencodepp.Graph.Renumbering
import Opencodepp.Library.FileChanges
import Opencodepp.Tools.WriteFrame
import Opencodepp.Tools.WriteClash
import Opencodepp.Library.Cyclic
import Opencodepp.Core.Channel
import Opencodepp.Store.FileVersions
import Opencodepp.Memory.FoldTrigger
import Opencodepp.Library.Bisection
import Opencodepp.Prompt.Truncation
import Opencodepp.Config.Load
import Opencodepp.Config.Validity
import Opencodepp.Library.BinaryHeap
import Opencodepp.Core.Timers
import Opencodepp.Core.TimerTurns
import Opencodepp.Core.Arena
import Opencodepp.Core.ArenaPieces
import Opencodepp.Library.EditDistance
import Opencodepp.Library.Blocks
import Opencodepp.Util.Sha1
import Opencodepp.Provider.Origins
import Opencodepp.Util.Base64Texts
import Opencodepp.Memory.ContextText
import Opencodepp.Memory.WorkspaceHash
import Opencodepp.Core.ArenaReplay
import Opencodepp.Graph.Faithfulness
import Opencodepp.Library.Accesses
import Opencodepp.Graph.Accesses
import Opencodepp.Graph.CppAccesses
import Opencodepp.Graph.GoAccesses
import Opencodepp.Graph.Completion
import Opencodepp.Agent.Footprint
import Opencodepp.Agent.Reception
