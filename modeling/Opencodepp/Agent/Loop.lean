import Opencodepp.Agent.Session
import Opencodepp.Memory.Summarizer
import Opencodepp.Net.Http
import Opencodepp.Tools.Write
import Opencodepp.Verify.Gate

/-!
# The drive loop

One task: classify the turn, then rounds of context assembly, one streamed cloud call,
and the tools the reply asks for, until the reply asks for none, the budget is spent,
the task is cancelled, or an error cannot be retried.

The functions follow the source one by one.  A function that returns an error code is
a program that exits with a `Failure`; `break` out of the round loop is the exit of
`round`.  The loop itself has no bound in the source: `drive` takes the number of rounds
after which a run is looked at, so a statement about every run is one for every such
number.
-/

set_option autoImplicit false

namespace Opencodepp.Agent

open Opencodepp.Core
open Opencodepp.Library
open Opencodepp.Msg
open Opencodepp.Provider

variable {P : Provider} {ε : Type} (env : Env)

/-- The seed of the jitter, from the session id. -/
def fnv1a32 (s : Bytes) : UInt32 :=
  s.foldl (fun h c => (h ^^^ c.toUInt32) * 16777619) 2166136261

/-! ## Feedback texts

The strings the agent hands back to the model, and the key by which a repeated gate failure is
recognised. -/

def stageName : Verify.Stage → Bytes
  | .syntax_ => str "syntax"
  | .symbols => str "symbols"
  | .impact => str "impact"
  | .diff => str "diff"
  | .testmap => str "testmap"

def gateFeedbackText (r : Verify.GateResult) : Bytes :=
  str "verify " ++ stageName r.stage ++
    (if r.file = [] then [] else str " '" ++ r.file ++ str "'") ++
    (if r.line = 0 then [] else str ":" ++ decimal r.line) ++
    (if r.col = 0 then [] else str ":" ++ decimal r.col) ++
    (if r.detail = [] then [] else str ": " ++ r.detail)

/-- The key of a gate failure: its stage, file and line. -/
def feedbackKey (r : Verify.GateResult) : Bytes :=
  stageName r.stage ++ str ":" ++ r.file ++ str ":" ++ decimal r.line

def toolErrorText (r : Tools.ToolResult) : Bytes :=
  str "tool " ++ r.toolId ++ (if r.status = .canceled then str " canceled" else []) ++
    (if r.content = [] then [] else str ": " ++ r.content)

def permissionText (toolName : Bytes) : Bytes := str "permission_denied: " ++ toolName

/-! ## The offered tools -/

def toProviderSpec (t : Tools.Tool) : ToolSpec :=
  ⟨t.spec.id, t.spec.name, t.spec.description, t.spec.paramsSchema⟩

/-- The tools a plan offers: none, the read-only ones, or all. -/
def toolsetFor (plan : IntentPlan) (reg : Option Tools.ToolRegistry) : List ToolSpec :=
  match reg with
  | none => []
  | some reg =>
      if !plan.wantsTools then []
      else if plan.budgetProfile = .edit then reg.tools.map toProviderSpec
      else (reg.tools.filter (·.spec.isReadOnly)).map toProviderSpec

/-! ## Assembly -/

/-- The history a plan is made from: folded when it exceeds the window. -/
def foldedHistory (msgs : List Message) : Memory.FoldResult :=
  let model := env.session.model
  if Memory.needsFold msgs model.contextWindow model.defaultMaxTokens 4 then
    Memory.foldOldest msgs model.contextWindow model.defaultMaxTokens 4 none
  else .none

/-- The input of the assembler. -/
def contextInput (plan : IntentPlan) (msgs : List Message) (tools : List ToolSpec)
    (used : UInt64) (memory : Bytes) : Prompt.ContextInput where
  registry := env.opts.prompt
  systemIds := []
  messages := msgs
  tools
  wireFamily := env.session.model.apiFamily
  env := if memory = [] then [] else [⟨str "memory", memory⟩]
  repo := []
  langStyle := []
  examples := []
  contextWindow := env.session.model.contextWindow
  maxOutputTokens := env.session.model.defaultMaxTokens
  targetTokens := 3500
  hardCapTokens := env.session.maxTokensPerTask
  availableTokens := UInt32.ofNat (budgetRemaining env.session used)
  recentAssistantTurns := 2
  edgeMode := plan.budgetProfile = .minimal
  injectToolSchema := false

/-- The workspace memory for the task text; empty without a store or a text. -/
def memoryTier : Program (Sys P) ε Bytes := fun s =>
  if env.session.hasStore && s.userInput ≠ [] then
    (.ok (env.world.memoryContext s.count.memory), { s with count.memory := s.count.memory + 1 })
  else (.ok [], s)

/-- Plan the messages of one round. -/
def assemble (plan : IntentPlan) : Program (Sys P) Failure (List ToolSpec × Budget) := do
  .stopIf env.opts.prompt.isNone (.of .eMissingCfg)
  let tools := toolsetFor plan env.opts.tools
  let history ← .gets fun s => s.session.messages
  let fold := foldedHistory env history
  .onlyIf fold.folded (emit env "fold" (fold.eventWhat ++ str ": " ++ fold.eventReason) 0)
  let memory ← memoryTier env
  let used ← .gets fun s => s.session.tokensUsed
  match Prompt.assembleContext (contextInput env plan
      (if fold.folded then fold.messages else history) tools used memory) with
  | .error e => .stop e
  | .ok planned => do
      record (.plan planned.messages tools)
      pure (tools, ⟨env.session.model.defaultMaxTokens, env.session.model.contextWindow, 0⟩)

/-! ## One connection attempt -/

/-- The failure every poll that finds the flag set returns with. -/
def cancelledFailure : Failure := .of .eCancelled

/-- Leave with `cancelled` when the flag is set. -/
def checkCancel (site : PollSite) : Program (Sys P) Failure Unit := do
  let seen ← pollCancel env site
  .stopIf seen cancelledFailure

/-- Hand on a result computed without effects. -/
def lift (x : Except Failure ε) : Program (Sys P) Failure ε :=
  match x with
  | .ok a => pure a
  | .error e => .stop e

/-- Send the remaining bytes of a request. -/
def sendAll : List (Except Failure Nat) → Nat → Program (Sys P) Failure Unit
  | [], remaining =>
      if remaining = 0 then pure ()
      else do
        checkCancel env .send
        .stop (.of .eNetTimeout)
  | outcome :: rest, remaining =>
      if remaining = 0 then pure ()
      else do
        checkCancel env .send
        let sent ← lift outcome
        .stopIf (sent = 0) (.of .eNetConnect)
        sendAll rest (remaining - sent)

/-- Read up to the end of the response head; its status code. -/
def readHead : List HeadRead → Program (Sys P) Failure Nat
  | [] => do
      checkCancel env .read
      .stop (.of .eNetTimeout)
  | .fail failure :: _ => do
      checkCancel env .read
      .stop failure
  | .eof :: _ => do
      checkCancel env .read
      .stop (.of .eNetConnect)
  | .more :: rest => do
      checkCancel env .read
      readHead rest
  | .head code :: _ => do
      checkCancel env .read
      pure code

/-- The round's sink: what one stream event does to the accumulators. -/
def Accum.sink (acc : Accum) : StreamEvent → Accum
  | .textDelta text => { acc with text := acc.text ++ text }
  | .toolCallDone call => { acc with calls := acc.calls ++ [call] }
  | .messageDone finish usage => { acc with usage, finish }
  | .providerError ec _ => { acc with providerErr := if ec.ok then ⟨.eProviderErr, 0⟩ else ec }
  | .reasoningDelta _ | .toolCallDelta _ _ _ | .messageStart => acc

/-- One frame through the provider into the accumulators; after a parse error frames
are ignored. -/
def deliverFrame (frame : StreamFrame) : Program (Sys P) ε Unit := .update fun s =>
  match s.session.provider with
  | none => s
  | some p =>
      if s.parseErr.ok then
        let parsed := P.parseFrame p frame
        { s with
          session.provider := some parsed.2.1
          parseErr := parsed.1
          acc := parsed.2.2.foldl Accum.sink s.acc }
      else s

/-- Feed the body chunks to the stream parser. -/
def drainBody : List BodyStep → Except Failure Unit → Program (Sys P) Failure Unit
  | [], bodyEnd => lift bodyEnd
  | step :: rest, bodyEnd => do
      checkCancel env .feed
      .forEach deliverFrame step.frames
      lift step.after
      drainBody rest bodyEnd

/-- The script of this attempt. -/
def nextAttempt : Program (Sys P) ε Attempt := fun s =>
  (.ok (env.world.attempts s.count.attempts), { s with count.attempts := s.count.attempts + 1 })

/-- Stream the answer of an open response. -/
def streamBody (script : Attempt) : Program (Sys P) Failure Unit := do
  .update fun s => { s with parseErr := .success }
  let drained ← .attempt (drainBody env script.body script.bodyEnd)
  match drained with
  | .error e => do
      emit env "stream" (if e.ec.code = .eCancelled then str "cancelled" else str "closed")
        e.ec.status
      .stop e
  | .ok _ => do
      let parseErr ← .gets fun s => s.parseErr
      match parseErr.check with
      | .error e => .stop e
      | .ok _ => emit env "stream" (str "closed") 0

/-- Connect the socket; a failure is reported before it is returned. -/
def connect (script : Attempt) : Program (Sys P) Failure Unit := do
  lift script.opened
  match script.connected with
  | .ok _ => pure ()
  | .error e => do
      emit env "connect" (str "failed " ++ str e.ec.message) e.ec.status
      .stop e

/-- The target of a request under an origin. -/
def requestPath (url : UrlParts) (req : RequestBytes) : Bytes :=
  (if url.path.getLast? = some slash then url.path.dropLast else url.path) ++ req.path

/-- The port a request goes to. -/
def requestPort (url : UrlParts) : Nat := if url.port = 0 then 80 else url.port

/-- The request as it is put on the wire. -/
def wireRequest (url : UrlParts) (req : RequestBytes) (requestId : Bytes) :
    Except Failure Bytes :=
  let headers :=
    if Net.httpHeader req.headers (str "Host") = [] then
      req.headers ++ [⟨str "Host", url.host ++ str ":" ++ decimal (requestPort url)⟩]
    else req.headers
  Net.httpBuildRequest ⟨req.method, requestPath url req, headers, req.body, requestId⟩

/-- Put the request on the wire and read the head of the response; its status code. -/
def sendRequest (script : Attempt) (url : UrlParts) (req : RequestBytes) :
    Program (Sys P) Failure Nat := do
  emit env "connect" (url.host ++ str ":" ++ decimal (requestPort url) ++ requestPath url req) 0
  connect env script
  let requestId ← .gets fun s => s.session.requestId
  let wire ← lift (wireRequest url req requestId)
  sendAll env script.sends wire.length
  readHead env script.reads

/-- Take the response: refused by its status, or streamed. -/
def receive (script : Attempt) (code : Nat) : Program (Sys P) Failure Unit :=
  match (Net.httpStatusError code).check with
  | .error e => do
      emit env "stream" (str "http " ++ decimal code) e.ec.status
      .stop e
  | .ok _ => do
      setState .streaming
      emit env "stream" (str "open") 0
      streamBody env script

/-- The part of an attempt that is on the network. -/
def exchange (script : Attempt) (url : UrlParts) (req : RequestBytes) :
    Program (Sys P) Failure Unit := do
  setState .connecting
  let code ← sendRequest env script url req
  receive env script code

/-- One attempt at the provider: build the request and stream the answer. -/
def streamCall (msgs : List Message) (tools : List ToolSpec) (budget : Budget) :
    Program (Sys P) Failure Unit := do
  let script ← nextAttempt env
  .stopIf (!env.opts.hasLoop) (.of .eInvalidCfg)
  checkCancel env .call
  let bound ← .gets fun s => s.session.provider
  match bound with
  | none => .stop (.of .eInvalidCfg)
  | some p => do
      record (.request msgs tools)
      let req ← lift (P.buildRequest p msgs tools env.session.model budget)
      let url ← lift (splitUrl env.session.model.baseUrl)
      .stopIf (url.scheme ≠ str "http") (.of .eNotImpl)
      exchange env script url req

/-! ## One round of attempts -/

/-- Sleep in slices, looking at the flag before each. -/
def sleepSlices : Nat → Program (Sys P) ε Unit
  | 0 => pure ()
  | slices + 1 => do
      let seen ← pollCancel env .backoff
      if seen then pure () else sleepSlices slices

def sleepBackoff (ms : Nat) : Program (Sys P) ε Unit := sleepSlices env ((ms + 99) / 100)

/-- The pause before another attempt. -/
def backoff (decision : Net.RetryDecision) (e : Failure) : Program (Sys P) ε Unit := do
  setLane .backoff
  emit env "backoff" decision.reason e.ec.status
  sleepBackoff env decision.delayMs
  setLane .none

/-- What a pass does with the end of its attempt: done, an error, or another attempt with
the seed that was drawn. -/
def judgeAttempt (attempt : Nat) (seed : UInt32) (called : Except Failure Unit) :
    Program (Sys P) Failure (Option UInt32) := do
  let providerErr ← .gets fun s => s.acc.providerErr
  match called with
  | .ok _ => do
      lift providerErr.check
      pure none
  | .error e => do
      .stopIf (e.ec.code = .eCancelled) e
      lift providerErr.check
      let decision := Net.decideRetry env.opts.retry seed e.ec attempt
      .stopIf (!decision.1.retry) e
      backoff env decision.1 e
      pure (some decision.2)

/-- One pass of the retry loop. -/
def tryOnce (tools : List ToolSpec) (budget : Budget) (attempt : Nat) (seed : UInt32) :
    Program (Sys P) Failure (Option UInt32) := do
  checkCancel env .attempt
  let history ← .gets fun s => s.session.messages
  let state ← .gets fun s => s.session.state
  let used ← .gets fun s => s.session.tokensUsed
  record (.attempt state used)
  let called ← .attempt (streamCall env history tools budget)
  judgeAttempt env attempt seed called

/-- The retry loop.  The policy ends it before `left` passes are used up. -/
def retryLoop (tools : List ToolSpec) (budget : Budget) :
    Nat → Nat → UInt32 → Program (Sys P) Failure Unit
  | 0, _, _ => .stop (.of .eInternal)
  | left + 1, attempt, seed => do
      let next ← tryOnce env tools budget attempt seed
      match next with
      | none => pure ()
      | some seed => retryLoop tools budget left (attempt + 1) seed

/-- The number of passes the policy can ask for. -/
def maxAttempts : Nat := max 1 env.opts.retry.maxRetries.toNat

/-- Open a request: the provider's stream and the accumulators start empty. -/
def openRequest (p : P.State) : Program (Sys P) ε Unit := do
  .update fun s => { s with session.provider := some (P.resetStream p) }
  beginRequest env
  .update fun s => { s with acc := .blank }

/-- One cloud call with its retries; the reply is left in the accumulators. -/
def oneRound (tools : List ToolSpec) (budget : Budget) : Program (Sys P) Failure Unit := do
  let p ← ensureProvider env
  openRequest env p
  retryLoop env tools budget (maxAttempts env) 1 (Net.setSeed (fnv1a32 env.session.id))

/-! ## Proposals -/

/-- The path argument of a write call, refused when it leaves the sandbox. -/
def proposalPath (args : Util.JVal) : Except Failure Bytes :=
  match args.findString (str "path") with
  | none => .error (.of .eToolReject)
  | some path =>
      if path = [] then .error (.of .eToolReject)
      else if path.head? = some slash || occursIn (str "..") path then .error (.of .eToolReject)
      else .ok path

/-- What an input stream reads of a file; empty when it does not open. -/
def readCurrent (path : Bytes) (d : Disk) : Bytes × Disk :=
  match d.read path with
  | (.unopened, d) => ([], d)
  | (.failed got, d) => (got, d)
  | (.complete content, d) => (content, d)

/-- The edit a write call proposes.  A patch is not applied here: only its text is
taken over. -/
def buildProposal (root : Bytes) (call : ToolCallDone) (d : Disk) :
    Except Failure Verify.EditProposal × Disk :=
  match Util.parseJson call.inputJson with
  | .error e => (.error e, d)
  | .ok args =>
      match proposalPath args with
      | .error e => (.error e, d)
      | .ok path =>
          if call.name = str "file.write" then
            match args.findString (str "content") with
            | none => (.error (.of .eToolReject), d)
            | some content =>
                let (current, d) := readCurrent (Tools.plainPath root path) d
                (.ok ⟨call.name, call.inputJson, path, current, content, []⟩, d)
          else if call.name = str "file.patch" then
            match args.findString (str "patch") with
            | none => (.error (.of .eToolReject), d)
            | some patch => (.ok ⟨call.name, call.inputJson, path, [], [], patch⟩, d)
          else (.error (.of .eToolNotfound), d)

/-! ## Tools -/

/-- A tool's result and the feedback it leaves for the model. -/
structure ToolOutcome where
  result : Tools.ToolResult
  feedback : Bytes

/-- Remember that a tool was denied in this workspace. -/
def writeRepoRule (toolName : Bytes) : Program (Sys P) ε Unit :=
  .onlyIf env.session.hasStore (record (.repoRule toolName))

/-- The entry an invocation leaves when the permission gate lets it run. -/
def executions (reg : Tools.ToolRegistry) (gate : Tools.Gate) (inv : Tools.Invocation)
    (s : Sys P) : List Ev :=
  match gate.permit reg s.count.asks inv.toolName inv with
  | .ok tool =>
      let outcome := tool.run s.count.asks inv s.cancel s.disk
      [.execute tool.spec inv s.disk outcome.1 outcome.2]
  | .error _ => []

/-- Dispatch through the permission gate. -/
def permissionRun (reg : Tools.ToolRegistry) (gate : Tools.Gate) (inv : Tools.Invocation) :
    Program (Sys P) ε Tools.ToolResult := fun s =>
  let outcome := gate.run reg s.count.asks inv.toolName inv s.cancel s.disk
  (.ok outcome.1,
    { s with
      disk := outcome.2
      count.asks := s.count.asks + 1
      log := executions reg gate inv s ++ .permission inv :: s.log })

/-- Run the gate on a proposal. -/
def gateRun (checkers : Verify.Checkers) (prop : Verify.EditProposal) :
    Program (Sys P) ε (List Verify.GateResult) := fun s =>
  let results := Verify.runAll checkers s.count.gateRuns env.opts.verifyCtx prop
  (.ok results,
    { s with count.gateRuns := s.count.gateRuns + 1, log := .gate prop results :: s.log })

/-- Build the proposal of a call from the current files. -/
def propose (call : ToolCallDone) : Program (Sys P) ε (Except Failure Verify.EditProposal) :=
  fun s =>
    let built := buildProposal env.opts.verifyCtx.workspaceRoot call s.disk
    (.ok built.1, { s with disk := built.2 })

/-- A gate failure becomes feedback; the second one with the same key aborts the task. -/
def gateFeedback (fail : Verify.GateResult) : Program (Sys P) ε Bytes := do
  let text := gateFeedbackText fail
  emit env "verify" text (ErrorCode.status ⟨.eVerifyFail, 0⟩)
  let seen ← .gets fun s => s.feedbackSeen
  if seen.contains (feedbackKey fail) then do
    .update fun s => { s with abortedByFeedback := true }
    pure (str "verify aborted: " ++ text)
  else do
    .update fun s => { s with feedbackSeen := s.feedbackSeen ++ [feedbackKey fail] }
    pure text

/-- The invocation of a call. -/
def invocationOf (call : ToolCallDone) : Tools.Invocation := ⟨call.name, call.inputJson⟩

/-- Apply a proposal the gate let through. -/
def applyWrite (reg : Tools.ToolRegistry) (gate : Tools.Gate) (call : ToolCallDone)
    (prop : Verify.EditProposal) : Program (Sys P) ε ToolOutcome := do
  enter env .applying "apply" call.name 0
  let r ← permissionRun reg gate (invocationOf call)
  match r.status with
  | .ok => do
      .update fun s =>
        { s with
          result.appliedEdits := s.result.appliedEdits ++
            [if prop.path = [] then call.name else prop.path ++ str " (" ++ call.name ++ str ")"] }
      pure ⟨r, []⟩
  | .error => do
      .onlyIf (r.content = str "permission_denied") (writeRepoRule env call.name)
      pure ⟨r, toolErrorText r⟩
  | .canceled => pure ⟨r, []⟩

/-- A write tool: verified first, applied only when no stage failed. -/
def runWriteTool (reg : Tools.ToolRegistry) (gate : Tools.Gate) (checkers : Verify.Checkers)
    (call : ToolCallDone) : Program (Sys P) ε ToolOutcome := do
  enter env .verifying "verify" call.name 0
  let proposed ← propose env call
  match proposed with
  | .error e =>
      let feedback := str "verify invalid " ++ call.name ++ str ": " ++ str e.ec.message
      pure ⟨.failure call.name feedback, feedback⟩
  | .ok prop => do
      let results ← gateRun env checkers prop
      match results.find? (!·.pass) with
      | some fail => do
          let feedback ← gateFeedback env fail
          pure ⟨.failure call.name feedback, feedback⟩
      | none => applyWrite env reg gate call prop

/-- Any other tool. -/
def runPlainTool (reg : Tools.ToolRegistry) (gate : Tools.Gate) (call : ToolCallDone) :
    Program (Sys P) ε ToolOutcome := do
  let r ← permissionRun reg gate (invocationOf call)
  if r.status = .ok then pure ⟨r, []⟩
  else if r.content = str "permission_denied" then do
    writeRepoRule env call.name
    pure ⟨r, permissionText call.name⟩
  else pure ⟨r, toolErrorText r⟩

/-- Execute one tool call. -/
def runTool (call : ToolCallDone) : Program (Sys P) ε ToolOutcome := do
  record (.toolBegin call)
  match env.opts.tools, env.opts.permission, env.opts.verify with
  | some reg, some gate, some checkers =>
      match reg.find call.name with
      | none => pure ⟨.failure call.name (str "unknown tool: " ++ call.name), []⟩
      | some tool =>
          if tool.spec.category = .write then runWriteTool env reg gate checkers call
          else runPlainTool env reg gate call
  | _, _, _ =>
      pure ⟨.failure call.name (str "agent loop missing registry/permission/verify"), []⟩

/-- Append the answer of a call. -/
def answerCall (call : ToolCallDone) (outcome : ToolOutcome) : Program (Sys P) ε Unit :=
  if outcome.feedback ≠ [] then do
    .update fun s => { s with result.feedback := s.result.feedback ++ [outcome.feedback] }
    appendToolResult env call.id outcome.feedback true
  else
    appendToolResult env call.id
      (if outcome.result.content = [] then str "ok" else outcome.result.content)
      (outcome.result.status ≠ .ok || outcome.result.contentIsError)

/-- The calls of a reply, one after the other.  The loop is left early by a cancel
request, by a tool that reports cancellation, and by repeated gate feedback; the calls
that get no answer then are noted. -/
def toolLoop : List ToolCallDone → Program (Sys P) ε Unit
  | [] => pure ()
  | call :: rest => do
      let seen ← pollCancel env .tool
      if seen then record (.dropped (call :: rest))
      else do
        let outcome ← runTool env call
        answerCall env call outcome
        let aborted ← .gets fun s => s.abortedByFeedback
        if outcome.result.status = .canceled then do
          .update fun s => { s with result.ec := cancelledFailure.ec }
          record (.dropped rest)
        else if aborted then record (.dropped rest)
        else toolLoop rest

/-! ## Rounds -/

/-- Persist the session; only its event is visible to the loop. -/
def checkpoint : Program (Sys P) ε Unit :=
  .onlyIf env.session.hasStore (emit env "checkpoint" env.session.id 0)

/-- Bring the state back to idle after a tool round. -/
def normaliseRound : Program (Sys P) ε Unit := do
  let first ← .gets fun s => s.session.state
  .onlyIf (first = .toolPhase) (enter env .verifying "verify" (str "no write proposals") 0)
  let second ← .gets fun s => s.session.state
  .onlyIf (second = .verifying) (enter env .applying "apply" (str "round complete") 0)
  let third ← .gets fun s => s.session.state
  .onlyIf (third = .applying) (enter env .idle "idle" (str "round boundary") 0)

/-- Check the budget and plan the round. -/
def prepareRound (plan : IntentPlan) : Program (Sys P) Failure (List ToolSpec × Budget) := do
  setState .preparing
  let used ← .gets fun s => s.session.tokensUsed
  .stopIf (budgetExhausted env.session used) (.of .eBudget)
  let prepared ← assemble env plan
  emit env "assemble" (str "tier=" ++ plan.budgetProfile.toBytes ++ str " tools=" ++
    decimal prepared.1.length) 0
  pure prepared

/-- Leave the loop with an error. -/
def breakWith {α : Type} (e : Failure) : Program (Sys P) Unit α := do
  .update fun s => { s with result.ec := e.ec }
  .stop ()

/-- A step whose failure ends the loop. -/
def orBreak {α : Type} (x : Program (Sys P) Failure α) : Program (Sys P) Unit α := do
  let outcome ← .attempt x
  match outcome with
  | .ok a => pure a
  | .error e => breakWith e

/-- Take over the reply of a completed round. -/
def acceptReply : Program (Sys P) ε Accum := do
  let acc ← .gets fun s => s.acc
  let history ← .gets fun s => s.session.messages
  .update fun s => { s with result.iterations := s.result.iterations + 1 }
  record (.reply history acc)
  appendAssistant env acc
  pure acc

/-- A reply without calls ends the task. -/
def concludeTask (text : Bytes) : Program (Sys P) Unit Unit := do
  .update fun s => { s with result.summary := text }
  enter env .done "done" (str "summary") 0
  .stop ()

/-- The tool part of a round. -/
def toolRound (calls : List ToolCallDone) : Program (Sys P) Unit Unit := do
  enter env .toolPhase "tools" (decimal calls.length ++ str " calls") 0
  toolLoop env calls
  checkpoint env
  let ec ← .gets fun s => s.result.ec
  .stopIf (ec.code = .eCancelled) ()
  let aborted ← .gets fun s => s.abortedByFeedback
  .onlyIf aborted (breakWith (.of .eAborted))

/-- What a round does with its reply. -/
def settleReply : Program (Sys P) Unit Unit := do
  let reply ← acceptReply env
  if reply.finish = .permissionDenied then do
    record (.dropped reply.calls)
    breakWith (.of .eToolReject)
  else if reply.calls = [] then concludeTask env reply.text
  else toolRound env reply.calls

/-- One round; its exit is the end of the loop. -/
def round (plan : IntentPlan) : Program (Sys P) Unit Unit := do
  let seen ← pollCancel env .roundTop
  .stopIf seen ()
  normaliseRound env
  let prepared ← orBreak (prepareRound env plan)
  orBreak (oneRound env prepared.1 prepared.2)
  settleReply env

/-! ## A drive -/

/-- Leave a one-line lesson about the finished task. -/
def writeTaskLesson (plan : IntentPlan) : Program (Sys P) ε Unit := do
  let summary ← .gets fun s => s.result.summary
  .onlyIf env.session.hasStore (record (.lesson summary plan.intent))

/-- Report how the task ended. -/
def finishDrive (plan : IntentPlan) : Program (Sys P) ε Unit := do
  checkpoint env
  .update fun s => { s with result.tokensUsed := s.session.tokensUsed }
  let ec ← .gets fun s => s.result.ec
  if ec.code = .eCancelled then enter env .cancelled "cancelled" (str "host cancelled") 0
  else if ec.code = .ok then do
    let state ← .gets fun s => s.session.state
    .onlyIf (state ≠ .done) (enter env .done "done" (str "summary") 0)
    writeTaskLesson env plan
  else enter env .error "error" (str ec.message) ec.status

/-- Start a task: refuse a busy session and a cancelled agent, classify the turn, and
append it to the history. -/
def beginDrive (input : Bytes) : Program (Sys P) Failure IntentPlan := do
  let before ← .gets fun s => s.session.state
  .onlyIf (isTerminal before) (setState .idle)
  let state ← .gets fun s => s.session.state
  .stopIf (state ≠ .idle) (.of .eBusy)
  checkCancel env .entry
  .update fun s => { s with feedbackSeen := [], abortedByFeedback := false, userInput := input }
  enter env .preparing "intent" (str "classifying") 0
  appendUser env input
  pure (classifyIntent input)

/-- The system at the start of a drive: nothing has happened yet. -/
def Sys.opened (s : Sys P) : Sys P := { s with result := .blank, log := [] }

/-- One call of drive, looked at after at most `fuel` rounds: the result when it has
returned by then, and the system as it stands. -/
def drive (fuel : Nat) (input : Bytes) (s : Sys P) : Option DriveResult × Sys P :=
  match beginDrive env input s.opened with
  | (.error e, s) => (some { s.result with ec := e.ec }, s)
  | (.ok plan, s) =>
      match Program.iterate (round env plan) fuel s with
      | (none, s) => (none, s)
      | (some _, s) =>
          let finished : Except Empty Unit × Sys P := finishDrive env plan s
          (some finished.2.result, finished.2)

end Opencodepp.Agent
