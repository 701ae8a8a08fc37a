import Opencodepp.Provider.Wire

/-!
# The Anthropic adapter

Named server-sent events.  A tool call is opened, fed and closed by content block
events of its index; the stop reason and usage are kept until the message stops.
-/

set_option autoImplicit false

namespace Opencodepp.Provider

open Opencodepp.Core
open Opencodepp.Library
open Opencodepp.Msg
open Opencodepp.Util

namespace Anthropic

/-- What the adapter keeps between frames. -/
structure Stream where
  pending : Pending
  stop : FinishReason
  usage : Usage
  deriving Repr, DecidableEq

/-- The stream state before a request. -/
def Stream.reset : Stream := ⟨[], .unknown, .zero⟩

structure State where
  baseUrl : Bytes
  apiKey : Bytes
  defaultMaxTokens : UInt32
  stream : Stream
  deriving Repr, DecidableEq

def make (baseUrl apiKey : Bytes) (defaultMaxTokens : UInt32) : State :=
  ⟨baseUrl, apiKey, if defaultMaxTokens = 0 then 4096 else defaultMaxTokens, .reset⟩

def mapStopReason (r : Bytes) : FinishReason :=
  if r = str "end_turn" then .endTurn
  else if r = str "max_tokens" then .maxTokens
  else if r = str "tool_use" then .toolUse
  else if r = str "stop_sequence" then .endTurn
  else .unknown

/-! ## Frames -/

/-- A usage object changes only the counts it carries. -/
def accumulateUsage (usage : Usage) (u : JVal) : Usage :=
  { usage with
    inputTokens := ((u.findNumber (str "input_tokens")).map toUInt64).getD usage.inputTokens
    outputTokens := ((u.findNumber (str "output_tokens")).map toUInt64).getD usage.outputTokens }

def addUsage (st : Stream) : Option JVal → Stream
  | none => st
  | some u => { st with usage := accumulateUsage st.usage u }

/-- The usage object of a started message: inside the message when there is one. -/
def startUsage (d : JVal) : Option JVal :=
  match getObj d "message" with
  | some message => getObj message "usage"
  | none => getObj d "usage"

def blockStart (st : Stream) (d : JVal) : Stream :=
  match getObj d "content_block" with
  | none => st
  | some cb =>
      if getStr cb "type" = str "tool_use" then
        { st with
          pending := OrderedMap.upsert (getNum d "index")
            (fun _ => ⟨getStr cb "id", getStr cb "name", []⟩) st.pending }
      else st

/-- Fold an argument fragment into its entry. -/
def mergeFragment (frag : Bytes) (old : Option PendingTool) : PendingTool :=
  let pt := old.getD .empty
  { pt with args := pt.args ++ frag }

def blockDelta (st : Stream) (d : JVal) : Stream × List StreamEvent :=
  match getObj d "delta" with
  | none => (st, [])
  | some delta =>
      let type := getStr delta "type"
      if type = str "text_delta" then (st, [.textDelta (getStr delta "text")])
      else if type = str "thinking_delta" then (st, [.reasoningDelta (getStr delta "thinking")])
      else if type = str "input_json_delta" then
        let idx := getNum d "index"
        let frag := getStr delta "partial_json"
        let pt := mergeFragment frag (st.pending.lookup idx)
        ({ st with pending := OrderedMap.upsert idx (mergeFragment frag) st.pending },
          [.toolCallDelta pt.id pt.name frag])
      else (st, [])

def blockStop (st : Stream) (d : JVal) : Stream × List StreamEvent :=
  let idx := getNum d "index"
  match st.pending.lookup idx with
  | none => (st, [])
  | some pt => ({ st with pending := OrderedMap.erase idx st.pending }, [.toolCallDone pt.done])

def messageDelta (st : Stream) (d : JVal) : Stream :=
  let stop := ((getObj d "delta").map (getStr · "stop_reason")).getD []
  let st := if stop = [] then st else { st with stop := mapStopReason stop }
  addUsage st (getObj d "usage")

def errorCodeOf (type : Bytes) : Err :=
  if type = str "authentication_error" || type = str "permission_error" then .eAuth
  else if type = str "rate_limit_error" then .eRateLimit
  else .eProviderErr

/-- One frame that parses to a value, by its event name. -/
def dispatch (st : Stream) (event : Bytes) (d : JVal) : Stream × List StreamEvent :=
  if event = str "ping" then (st, [])
  else if event = str "message_start" then (addUsage st (startUsage d), [.messageStart])
  else if event = str "content_block_start" then (blockStart st d, [])
  else if event = str "content_block_delta" then blockDelta st d
  else if event = str "content_block_stop" then blockStop st d
  else if event = str "message_delta" then (messageDelta st d, [])
  else if event = str "message_stop" then (st, [.messageDone st.stop st.usage])
  else if event = str "error" then
    let err := (getObj d "error").getD .null
    (st, [.providerError ⟨errorCodeOf (getStr err "type"), 0⟩ (getStr err "message")])
  else
    (st, [.providerError ⟨.eProtoParse, 0⟩ (str "anthropic: unknown event '" ++ event ++ str "'")])

/-- One frame. -/
def parseFrame (st : Stream) (frame : StreamFrame) : Stream × List StreamEvent :=
  match parseJson frame.data with
  | .error e => (st, [.providerError e.ec (str "anthropic: bad frame JSON")])
  | .ok d => dispatch st frame.event d

/-! ## Requests -/

def buildUserBlocks (m : Message) : List JVal :=
  m.parts.filterMap fun
    | .text content => some (jsonObject [("type", jsonStr "text"), ("text", .string content)])
    | .imageUrl url =>
        some (jsonObject [("type", jsonStr "image"),
          ("source", jsonObject [("type", jsonStr "url"), ("url", .string url)])])
    | .binary mime data =>
        some (jsonObject [("type", jsonStr "image"),
          ("source", jsonObject [("type", jsonStr "base64"), ("media_type", .string mime),
            ("data", .string (b64Encode data))])])
    | .toolResult r =>
        some (jsonObject [("type", jsonStr "tool_result"), ("tool_use_id", .string r.callId),
          ("content", .string r.content), ("is_error", .boolean r.isError)])
    | _ => none

def buildAssistantBlocks (m : Message) : List JVal :=
  m.parts.filterMap fun
    | .text content => some (jsonObject [("type", jsonStr "text"), ("text", .string content)])
    | .reasoning content =>
        some (jsonObject [("type", jsonStr "thinking"), ("thinking", .string content)])
    | .toolCall c =>
        (toolInput c.inputJson).map fun input =>
          jsonObject [("type", jsonStr "tool_use"), ("id", .string c.id), ("name", .string c.name),
            ("input", input)]
    | _ => none

/-- The wire messages of one message; a message without blocks is left out. -/
def wireMessage (m : Message) : List JVal :=
  match m.role with
  | .user =>
      let blocks := buildUserBlocks m
      if blocks.isEmpty then []
      else [jsonObject [("role", jsonStr "user"), ("content", .array blocks)]]
  | .assistant =>
      let blocks := buildAssistantBlocks m
      if blocks.isEmpty then []
      else [jsonObject [("role", jsonStr "assistant"), ("content", .array blocks)]]
  | .system | .tool => []

def wireTool (t : ToolSpec) : JVal :=
  jsonObject [("name", .string t.name), ("description", .string t.description),
    ("input_schema", schemaObject t.inputSchemaJson)]

def buildRequest (st : State) (msgs : List Message) (tools : List ToolSpec) (model : ModelSpec)
    (budget : Budget) : Except Failure RequestBytes :=
  match splitUrl st.baseUrl with
  | .error e => .error e
  | .ok url =>
      let root := jsonObject ([("model", .string model.apiModelName),
          ("max_tokens", jsonNat (wireMaxTokens budget model st.defaultMaxTokens).toNat)] ++
        (if systemText msgs = [] then [] else [("system", .string (systemText msgs))]) ++
        [("messages", .array (msgs.flatMap wireMessage))] ++
        (if tools.isEmpty then [] else [("tools", .array (tools.map wireTool))]) ++
        [("stream", .boolean true)])
      .ok
        { method := str "POST"
          path := url.path ++ str "/v1/messages"
          headers :=
            [⟨str "Host", hostHeader url⟩, ⟨str "Content-Type", str "application/json"⟩,
              ⟨str "Accept", str "text/event-stream"⟩, ⟨str "x-api-key", st.apiKey⟩,
              ⟨str "anthropic-version", str "2023-06-01"⟩]
          body := toJson root }

end Anthropic

end Opencodepp.Provider
