import Opencodepp.Provider.Wire

/-!
# The Gemini adapter

One JSON value per line.  Function calls arrive whole and are numbered by the
adapter; the first finish reason ends the message.
-/

set_option autoImplicit false

namespace Opencodepp.Provider

open Opencodepp.Core
open Opencodepp.Library
open Opencodepp.Msg
open Opencodepp.Util

namespace Gemini

/-- What the adapter keeps between frames. -/
structure Stream where
  callSeq : UInt32
  doneEmitted : Bool
  usage : Usage
  deriving Repr, DecidableEq

/-- The stream state before a request. -/
def Stream.reset : Stream := ⟨0, false, .zero⟩

structure State where
  baseUrl : Bytes
  apiKey : Bytes
  defaultMaxTokens : UInt32
  stream : Stream
  deriving Repr, DecidableEq

def make (baseUrl apiKey : Bytes) (defaultMaxTokens : UInt32) : State :=
  ⟨baseUrl, apiKey, defaultMaxTokens, .reset⟩

def mapFinish (r : Bytes) : FinishReason :=
  if r = str "STOP" then .endTurn
  else if r = str "MAX_TOKENS" then .maxTokens
  else if r = str "SAFETY" || r = str "RECITATION" || r = str "BLOCKLIST" then .error
  else .unknown

/-! ## Frames -/

/-- One part of a candidate's content. -/
def candidatePart (acc : Stream × List StreamEvent) (part : JVal) : Stream × List StreamEvent :=
  match getObj part "functionCall" with
  | some fn =>
      let input := ((getObj fn "args").map toJson).getD (str "\x7b\x7d")
      ({ acc.1 with callSeq := acc.1.callSeq + 1 },
        acc.2 ++ [.toolCallDone
          ⟨str "fc" ++ decimal acc.1.callSeq.toNat, getStr fn "name", input⟩])
  | none =>
      let text := getStr part "text"
      if text = [] then acc
      else if getBool part "thought" then (acc.1, acc.2 ++ [.reasoningDelta text])
      else (acc.1, acc.2 ++ [.textDelta text])

def usageMetadata (usage : Usage) : Option JVal → Usage
  | none => usage
  | some um =>
      { inputTokens := getNum um "promptTokenCount"
        outputTokens := getNum um "candidatesTokenCount"
        cachedInputTokens := getNum um "cachedContentTokenCount" }

/-- One frame that parses to a value.  Only the first candidate is read. -/
def chunk (st : Stream) (d : JVal) : Stream × List StreamEvent :=
  let cand := ((getArr d "candidates").getD []).head?
  let finish := (cand.map (getStr · "finishReason")).getD []
  let parts := ((cand.bind (getObj · "content")).bind (getArr · "parts")).getD []
  let acc := parts.foldl candidatePart (st, [])
  let st := { acc.1 with usage := usageMetadata acc.1.usage (getObj d "usageMetadata") }
  if finish ≠ [] && !st.doneEmitted then
    ({ st with doneEmitted := true }, acc.2 ++ [.messageDone (mapFinish finish) st.usage])
  else (st, acc.2)

/-- One frame. -/
def parseFrame (st : Stream) (frame : StreamFrame) : Stream × List StreamEvent :=
  match parseJson frame.data with
  | .error e => (st, [.providerError e.ec (str "gemini: bad frame JSON")])
  | .ok d => chunk st d

/-! ## Requests -/

def buildUserParts (m : Message) (callNames : List (Bytes × Bytes)) : List JVal :=
  m.parts.filterMap fun
    | .text content => some (jsonObject [("text", .string content)])
    | .imageUrl url => some (jsonObject [("fileData", jsonObject [("fileUri", .string url)])])
    | .binary mime data =>
        some (jsonObject [("inlineData",
          jsonObject [("mimeType", .string mime), ("data", .string (b64Encode data))])])
    | .toolResult r =>
        match callNames.lookup r.callId with
        | some name =>
            some (jsonObject [("functionResponse", jsonObject [("name", .string name),
              ("response", jsonObject [("content", .string r.content),
                ("is_error", .boolean r.isError)])])])
        | none =>
            some (jsonObject [("text",
              .string (str "[tool_result " ++ r.callId ++ str "] " ++ r.content))])
    | _ => none

def buildModelParts (m : Message) : List JVal :=
  m.parts.filterMap fun
    | .text content => some (jsonObject [("text", .string content)])
    | .reasoning content => some (jsonObject [("text", .string content), ("thought", .boolean true)])
    | .toolCall c =>
        (toolInput c.inputJson).map fun args =>
          jsonObject [("functionCall", jsonObject [("name", .string c.name), ("args", args)])]
    | _ => none

/-- One message: the wire contents so far and the names of the calls seen, the first
name of an id being kept. -/
def wireMessage (acc : List JVal × List (Bytes × Bytes)) (m : Message) :
    List JVal × List (Bytes × Bytes) :=
  match m.role with
  | .assistant =>
      let names := acc.2 ++ m.toolCalls.map fun c => (c.id, c.name)
      let parts := buildModelParts m
      if parts.isEmpty then (acc.1, names)
      else (acc.1 ++ [jsonObject [("role", jsonStr "model"), ("parts", .array parts)]], names)
  | .user =>
      let parts := buildUserParts m acc.2
      if parts.isEmpty then acc
      else (acc.1 ++ [jsonObject [("role", jsonStr "user"), ("parts", .array parts)]], acc.2)
  | .system | .tool => acc

def wireTool (t : ToolSpec) : JVal :=
  jsonObject [("name", .string t.name), ("description", .string t.description),
    ("parameters", schemaObject t.inputSchemaJson)]

def buildRequest (st : State) (msgs : List Message) (tools : List ToolSpec) (model : ModelSpec)
    (budget : Budget) : Except Failure RequestBytes :=
  match splitUrl st.baseUrl with
  | .error e => .error e
  | .ok url =>
      let system := systemText msgs
      let maxTokens := wireMaxTokens budget model st.defaultMaxTokens
      let root := jsonObject ([("contents", .array (msgs.foldl wireMessage ([], [])).1)] ++
        (if system = [] then []
          else [("systemInstruction",
            jsonObject [("parts", .array [jsonObject [("text", .string system)]])])]) ++
        (if tools.isEmpty then []
          else [("tools", .array [jsonObject [("functionDeclarations",
            .array (tools.map wireTool))]])]) ++
        (if maxTokens = 0 then []
          else [("generationConfig",
            jsonObject [("maxOutputTokens", jsonNat maxTokens.toNat)])]))
      .ok
        { method := str "POST"
          path := url.path ++ str "/models/" ++ model.apiModelName ++
            str ":streamGenerateContent?alt=json&key=" ++ st.apiKey
          headers :=
            [⟨str "Host", hostHeader url⟩, ⟨str "Content-Type", str "application/json"⟩,
              ⟨str "Accept", str "application/json"⟩]
          body := toJson root }

end Gemini

end Opencodepp.Provider
