import Opencodepp.Agent.Intent
import Opencodepp.Agent.States
import Opencodepp.Library.Program
import Opencodepp.Net.Policy
import Opencodepp.Prompt.Context
import Opencodepp.Provider.Interface
import Opencodepp.Tools.Tool
import Opencodepp.Verify.Gate

/-!
# The session and the system around it

`Sys` is everything a drive reads and updates: the session with its history, budget
and state, the agent's own flags, the result under construction, the file system, and
the log of what happened, newest first.  The log is a record for stating properties;
no decision of the program reads it.

What the agent does not control is fixed in advance by a `World`: the moments at which
the host asks to cancel, the fate of every connection attempt, the clock, and the text
the workspace memory contributes.  A property that holds for every world holds for
every behaviour of the provider, the network and the host.
-/

set_option autoImplicit false

namespace Opencodepp.Agent

open Opencodepp.Core
open Opencodepp.Library
open Opencodepp.Msg
open Opencodepp.Provider

/-! ## What is fixed -/

/-- One successful step of reading the response head, or how reading ended. -/
inductive HeadRead
  | fail (failure : Failure)
  | eof
  | more
  | head (code : Nat)

/-- One body chunk: the frames it completes, and what feeding it returned. -/
structure BodyStep where
  frames : List StreamFrame
  after : Except Failure Unit

/-- The fate of one connection attempt.  A script that runs out stands for the deadline. -/
structure Attempt where
  opened : Except Failure Unit
  connected : Except Failure Unit
  sends : List (Except Failure Nat)
  reads : List HeadRead
  body : List BodyStep
  bodyEnd : Except Failure Unit

/-- The environment of a run.  Every entry is indexed by how often it was consulted. -/
structure World where
  hostCancels : Nat → Bool
  sinkStops : Nat → Bool
  attempts : Nat → Attempt
  wallClock : Nat → UInt64
  memoryContext : Nat → Bytes

/-- The options of the session. -/
structure SessionOptions where
  id : Bytes
  maxTokensPerTask : UInt32
  agentMaxTokens : List UInt32
  model : ModelSpec
  providerId : Bytes
  apiKey : Bytes
  hasStore : Bool
  hasSink : Bool

/-- The collaborators of the loop; a missing one is a null pointer. -/
structure LoopOptions where
  hasLoop : Bool
  prompt : Option Prompt.PromptRegistry
  tools : Option Tools.ToolRegistry
  permission : Option Tools.Gate
  verify : Option Verify.Checkers
  verifyCtx : Verify.Context
  retry : Net.RetryBudget

structure Env where
  session : SessionOptions
  opts : LoopOptions
  world : World

/-! ## What changes -/

/-- Where the cancel flag is read. -/
inductive PollSite
  | entry
  | roundTop
  | attempt
  | call
  | send
  | read
  | feed
  | backoff
  | tool
  deriving Repr, DecidableEq

/-- What a round collects from its stream. -/
structure Accum where
  text : Bytes
  calls : List ToolCallDone
  usage : Usage
  finish : FinishReason
  providerErr : ErrorCode
  deriving Repr, DecidableEq

def Accum.blank : Accum := ⟨[], [], .zero, .unknown, .success⟩

/-- What a drive returns. -/
structure DriveResult where
  ec : ErrorCode
  summary : Bytes
  appliedEdits : List Bytes
  feedback : List Bytes
  tokensUsed : UInt64
  iterations : UInt32
  deriving Repr, DecidableEq

def DriveResult.blank : DriveResult := ⟨.success, [], [], [], 0, 0⟩

/-- One thing that happened. -/
inductive Ev
  | poll (site : PollSite) (seen : Bool)
  | setState (source target : AgentState)
  | emit (event : AgentEvent)
  | plan (msgs : List Message) (tools : List ToolSpec)
  | attempt (state : AgentState) (tokensUsed : UInt64)
  | request (msgs : List Message) (tools : List ToolSpec)
  | reply (history : List Message) (acc : Accum)
  | toolBegin (call : ToolCallDone)
  | gate (prop : Verify.EditProposal) (results : List Verify.GateResult)
  | permission (inv : Tools.Invocation)
  | execute (spec : Tools.ToolSpec) (inv : Tools.Invocation) (before : Disk)
      (result : Tools.ToolResult) (after : Disk)
  | dropped (calls : List ToolCallDone)
  | lesson (summary : Bytes) (intent : Intent)
  | repoRule (toolName : Bytes)

/-- The mutable part of a session. -/
structure Session (P : Provider) where
  messages : List Message
  tokensUsed : UInt64
  msgSeq : Nat
  provider : Option P.State
  requestId : Bytes
  reqSeq : Nat
  state : AgentState
  lane : AgentLane

/-- How often each entry of the world was consulted. -/
structure Counters where
  polls : Nat
  emits : Nat
  attempts : Nat
  clock : Nat
  memory : Nat
  gateRuns : Nat
  asks : Nat

structure Sys (P : Provider) where
  session : Session P
  cancel : Bool
  feedbackSeen : List Bytes
  abortedByFeedback : Bool
  userInput : Bytes
  acc : Accum
  parseErr : ErrorCode
  result : DriveResult
  disk : Disk
  count : Counters
  log : List Ev

/-- A session before its first task. -/
def Session.fresh (P : Provider) : Session P := ⟨[], 0, 0, none, [], 0, .idle, .none⟩

/-- An agent before its first task over a file system. -/
def Sys.fresh (P : Provider) (disk : Disk) : Sys P :=
  ⟨.fresh P, false, [], false, [], .blank, .success, .blank, disk, ⟨0, 0, 0, 0, 0, 0, 0⟩, []⟩

variable {P : Provider} {ε : Type}

/-! ## Primitive steps -/

/-- Note an event in the log. -/
def record (ev : Ev) : Program (Sys P) ε Unit := .update fun s => { s with log := ev :: s.log }

/-- Read the cancel flag.  A request of the host from another thread is seen by the
next read at the earliest, so it may as well arrive right after this one. -/
def pollCancel (env : Env) (site : PollSite) : Program (Sys P) ε Bool := fun s =>
  (.ok s.cancel,
    { s with
      cancel := s.cancel || env.world.hostCancels s.count.polls
      count.polls := s.count.polls + 1
      log := .poll site s.cancel :: s.log })

/-- The event a session reports. -/
def Session.event (session : Session P) (phase : String) (detail : Bytes) (status : Nat) :
    AgentEvent :=
  ⟨session.state, session.lane, str phase, detail, session.tokensUsed, status⟩

/-- Report an event to the host, whose answer may be to cancel the task. -/
def emit (env : Env) (phase : String) (detail : Bytes) (status : Nat) :
    Program (Sys P) ε Unit := fun s =>
  if env.session.hasSink then
    (.ok (),
      { s with
        cancel := s.cancel || env.world.sinkStops s.count.emits
        count.emits := s.count.emits + 1
        log := .emit (s.session.event phase detail status) :: s.log })
  else (.ok (), s)

/-- Request a transition; an illegal one is dropped. -/
def setState (target : AgentState) : Program (Sys P) ε Unit := .update fun s =>
  { s with
    session.state := nextState s.session.state target
    log := .setState s.session.state target :: s.log }

/-- Request a transition and report it. -/
def enter (env : Env) (target : AgentState) (phase : String) (detail : Bytes) (status : Nat) :
    Program (Sys P) ε Unit := do
  setState target
  emit env phase detail status

/-- Enter a lane when the state allows it. -/
def setLane (lane : AgentLane) : Program (Sys P) ε Unit := .update fun s =>
  { s with session.lane := if laneAllowed s.session.state lane then lane else s.session.lane }

/-! ## The budget -/

/-- The cap of a task: the first agent that sets one, or the default. -/
def budgetCap (opts : SessionOptions) : UInt32 :=
  (opts.agentMaxTokens.find? (· ≠ 0)).getD opts.maxTokensPerTask

/-- The tokens left. -/
def budgetRemaining (opts : SessionOptions) (used : UInt64) : Nat :=
  (budgetCap opts).toNat - used.toNat

def budgetExhausted (opts : SessionOptions) (used : UInt64) : Bool :=
  budgetRemaining opts used = 0

/-- Add the tokens of a reply to those used. -/
def accountTokens (used : UInt64) (usage : Usage) : UInt64 :=
  if usage.inputTokens ≠ 0 || usage.outputTokens ≠ 0 then
    used + (usage.inputTokens + usage.outputTokens)
  else used

/-! ## The history -/

/-- Append a message under the next id and the current time. -/
def appendMessage (env : Env) (role : Role) (model : Bytes) (parts : List Part) :
    Program (Sys P) ε Unit := .update fun s =>
  { s with
    session.messages := s.session.messages ++
      [⟨str "m" ++ decimal (s.session.msgSeq + 1), env.session.id, role, model, parts,
        env.world.wallClock s.count.clock⟩]
    session.msgSeq := s.session.msgSeq + 1
    count.clock := s.count.clock + 1 }

def appendUser (env : Env) (text : Bytes) : Program (Sys P) ε Unit :=
  appendMessage env .user [] [.text text]

/-- The parts of an assistant's reply. -/
def assistantParts (text : Bytes) (calls : List ToolCallDone) (finish : FinishReason) :
    List Part :=
  (if text = [] then [] else [.text text]) ++
    calls.map (fun c => .toolCall ⟨c.id, c.name, c.inputJson, true⟩) ++
    (if finish = .unknown then [] else [.finish finish])

def appendAssistant (env : Env) (acc : Accum) : Program (Sys P) ε Unit := do
  appendMessage env .assistant env.session.model.apiModelName
    (assistantParts acc.text acc.calls acc.finish)
  .update fun s =>
    { s with session.tokensUsed := accountTokens s.session.tokensUsed acc.usage }

def appendToolResult (env : Env) (callId content : Bytes) (isError : Bool) :
    Program (Sys P) ε Unit :=
  appendMessage env .user [] [.toolResult ⟨callId, content, isError⟩]

/-! ## The provider binding -/

/-- Build the provider on first use. -/
def ensureProvider (env : Env) : Program (Sys P) Failure P.State := do
  let bound ← .gets fun s => s.session.provider
  match bound with
  | some p => pure p
  | none =>
      if env.session.providerId = [] then .stop (.of .eInvalidCfg)
      else
        match P.make ⟨env.session.providerId, env.session.apiKey, env.session.model.baseUrl, [],
            env.session.model.defaultMaxTokens⟩ with
        | .error e => .stop e
        | .ok p => do
            .update fun s => { s with session.provider := some p }
            pure p

/-- Open the window of a new request; its id is kept over all retries. -/
def beginRequest (env : Env) : Program (Sys P) ε Unit := .update fun s =>
  { s with
    session.requestId := env.session.id ++ str "-req" ++ decimal (s.session.reqSeq + 1)
    session.reqSeq := s.session.reqSeq + 1 }

end Opencodepp.Agent
