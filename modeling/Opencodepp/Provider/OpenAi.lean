import Opencodepp.Provider.Wire

/-!
# The OpenAI adapter

Chat completions over server-sent events.  The fragments of a tool call are
stitched together per index and released as finished calls when the first known
finish reason arrives.
-/

set_option autoImplicit false

namespace Opencodepp.Provider

open Opencodepp.Core
open Opencodepp.Library
open Opencodepp.Msg
open Opencodepp.Util

namespace OpenAi

/-- What the adapter keeps between frames. -/
structure Stream where
  pending : Pending
  finish : FinishReason
  doneEmitted : Bool
  usage : Usage
  deriving Repr, DecidableEq

/-- The stream state before a request. -/
def Stream.reset : Stream := ⟨[], .unknown, false, .zero⟩

structure State where
  baseUrl : Bytes
  apiKey : Bytes
  defaultMaxTokens : UInt32
  endpointPath : Bytes
  stream : Stream
  deriving Repr, DecidableEq

/-- Construct the adapter; an endpoint path always starts with a slash. -/
def make (baseUrl apiKey : Bytes) (defaultMaxTokens : UInt32) (endpointPath : Bytes) : State :=
  let path := if endpointPath = [] then str "/chat/completions" else endpointPath
  ⟨baseUrl, apiKey, defaultMaxTokens, if path.head? = some slash then path else slash :: path,
    .reset⟩

def mapFinishReason (r : Bytes) : FinishReason :=
  if r = str "stop" then .endTurn
  else if r = str "length" then .maxTokens
  else if r = str "tool_calls" || r = str "function_call" then .toolUse
  else if r = str "content_filter" then .error
  else .unknown

/-! ## Frames -/

/-- Fold a fragment into its entry. -/
def mergeFragment (tc : JVal) (old : Option PendingTool) : PendingTool :=
  let pt := old.getD .empty
  let pt := if getStr tc "id" ≠ [] && pt.id = [] then { pt with id := getStr tc "id" } else pt
  match getObj tc "function" with
  | none => pt
  | some fn => { pt with name := pt.name ++ getStr fn "name", args := pt.args ++ getStr fn "arguments" }

/-- The delta announced for a fragment that carries arguments. -/
def fragmentDelta (pt : PendingTool) (tc : JVal) : List StreamEvent :=
  match getObj tc "function" with
  | none => []
  | some fn =>
      if getStr fn "arguments" = [] then []
      else [.toolCallDelta pt.id pt.name (getStr fn "arguments")]

/-- One element of a delta's tool calls. -/
def toolFragment (acc : Stream × List StreamEvent) (tc : JVal) : Stream × List StreamEvent :=
  let idx := getNum tc "index"
  let pt := mergeFragment tc (acc.1.pending.lookup idx)
  ({ acc.1 with pending := OrderedMap.upsert idx (mergeFragment tc) acc.1.pending },
    acc.2 ++ fragmentDelta pt tc)

/-- The delta of a choice. -/
def choiceDelta (acc : Stream × List StreamEvent) (delta : JVal) : Stream × List StreamEvent :=
  let content := getStr delta "content"
  let acc := if content = [] then acc else (acc.1, acc.2 ++ [.textDelta content])
  ((getArr delta "tool_calls").getD []).foldl toolFragment acc

/-- One choice of a chunk: its delta, then its finish reason. -/
def choice (acc : Stream × List StreamEvent) (c : JVal) : Stream × List StreamEvent :=
  let acc :=
    match getObj c "delta" with
    | none => acc
    | some delta => choiceDelta acc delta
  let fr := getStr c "finish_reason"
  if fr ≠ [] && acc.1.finish = .unknown then
    ({ acc.1 with finish := mapFinishReason fr }, acc.2)
  else acc

def accumulateUsage (usage : Usage) (u : JVal) : Usage :=
  { inputTokens := getNum u "prompt_tokens"
    outputTokens := getNum u "completion_tokens"
    cachedInputTokens :=
      match getObj u "prompt_tokens_details" with
      | none => usage.cachedInputTokens
      | some det => getNum det "cached_tokens" }

/-- What a usage object reports on its own. -/
def parseUsage (json : JVal) : Usage :=
  { inputTokens := getNum json "prompt_tokens"
    outputTokens := getNum json "completion_tokens"
    cachedInputTokens :=
      match getObj json "prompt_tokens_details" with
      | none => 0
      | some det => getNum det "cached_tokens" }

/-- Release the pending calls and the end of the message, once. -/
def release (acc : Stream × List StreamEvent) : Stream × List StreamEvent :=
  if acc.1.finish ≠ .unknown && !acc.1.doneEmitted then
    ({ acc.1 with doneEmitted := true },
      acc.2 ++ acc.1.pending.map (fun entry => .toolCallDone entry.2.done) ++
        [.messageDone acc.1.finish acc.1.usage])
  else acc

def errorCodeOf (type : Bytes) : Err :=
  if type = str "authentication_error" || type = str "invalid_api_key" ||
      type = str "insufficient_quota" then .eAuth
  else if type = str "rate_limit_error" then .eRateLimit
  else .eProviderErr

/-- One frame that parses to a value. -/
def chunk (st : Stream) (d : JVal) : Stream × List StreamEvent :=
  match getObj d "error" with
  | some err => (st, [.providerError ⟨errorCodeOf (getStr err "type"), 0⟩ (getStr err "message")])
  | none =>
      let acc := ((getArr d "choices").getD []).foldl choice (st, [])
      let acc :=
        match getObj d "usage" with
        | none => acc
        | some u => ({ acc.1 with usage := accumulateUsage acc.1.usage u }, acc.2)
      release acc

/-- One frame. -/
def parseFrame (st : Stream) (frame : StreamFrame) : Stream × List StreamEvent :=
  match parseJson frame.data with
  | .error e => (st, [.providerError e.ec (str "openai: bad frame JSON")])
  | .ok d => chunk st d

/-! ## Requests -/

/-- The image part of a user message. -/
def imagePart (url : Bytes) : JVal :=
  jsonObject [("type", jsonStr "image_url"), ("image_url", jsonObject [("url", .string url)])]

def buildUserContent (m : Message) : JVal :=
  let texts := m.parts.filterMap fun
    | .text content => some content
    | _ => none
  let images := m.parts.filterMap fun
    | .imageUrl url => some (imagePart url)
    | .binary mime data =>
        some (imagePart (str "data:" ++ mime ++ str ";base64," ++ b64Encode data))
    | _ => none
  if images.isEmpty then .string texts.flatten
  else
    .array (texts.map (fun t => jsonObject [("type", jsonStr "text"), ("text", .string t)]) ++ images)

/-- Whether there is nothing to say in a user message. -/
def emptyContent : JVal → Bool
  | .string s => s.isEmpty
  | .array arr => arr.isEmpty
  | _ => false

/-- The wire messages of one message. -/
def wireMessage (m : Message) : List JVal :=
  match m.role with
  | .system =>
      if m.contentText = [] then []
      else [jsonObject [("role", jsonStr "system"), ("content", .string m.contentText)]]
  | .user =>
      let tools := m.toolResults.map fun r =>
        jsonObject [("role", jsonStr "tool"), ("tool_call_id", .string r.callId),
          ("content", .string r.content)]
      let content := buildUserContent m
      (if emptyContent content then []
        else [jsonObject [("role", jsonStr "user"), ("content", content)]]) ++ tools
  | .assistant =>
      let content := m.parts.flatMap fun
        | .text content => content
        | .reasoning content => content
        | _ => []
      let calls := m.toolCalls.map fun c =>
        jsonObject [("id", .string c.id), ("type", jsonStr "function"),
          ("function", jsonObject [("name", .string c.name), ("arguments", .string c.inputJson)])]
      if content = [] && calls.isEmpty then []
      else
        [jsonObject ([("role", jsonStr "assistant")] ++
          (if content ≠ [] || calls.isEmpty then [("content", .string content)] else []) ++
          (if calls.isEmpty then [] else [("tool_calls", .array calls)]))]
  | .tool => []

def wireTool (t : ToolSpec) : JVal :=
  jsonObject [("type", jsonStr "function"),
    ("function", jsonObject [("name", .string t.name), ("description", .string t.description),
      ("parameters", schemaObject t.inputSchemaJson)])]

def buildRequest (st : State) (msgs : List Message) (tools : List ToolSpec) (model : ModelSpec)
    (budget : Budget) : Except Failure RequestBytes :=
  match splitUrl st.baseUrl with
  | .error e => .error e
  | .ok url =>
      let maxTokens := wireMaxTokens budget model st.defaultMaxTokens
      let root := jsonObject ([("model", .string model.apiModelName),
          ("messages", .array (msgs.flatMap wireMessage))] ++
        (if tools.isEmpty then [] else [("tools", .array (tools.map wireTool))]) ++
        [("stream", .boolean true),
          ("stream_options", jsonObject [("include_usage", .boolean true)])] ++
        (if maxTokens = 0 then [] else [("max_tokens", jsonNat maxTokens.toNat)]))
      .ok
        { method := str "POST"
          path := url.path ++ st.endpointPath
          headers :=
            [⟨str "Host", hostHeader url⟩, ⟨str "Content-Type", str "application/json"⟩,
              ⟨str "Accept", str "text/event-stream"⟩,
              ⟨str "Authorization", str "Bearer " ++ st.apiKey⟩]
          body := toJson root }

end OpenAi

end Opencodepp.Provider
