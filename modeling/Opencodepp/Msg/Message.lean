import Opencodepp.Library.ByteString

/-!
# Messages

A message is metadata with an ordered body of parts.  A conversation is a list of
messages; its tool traffic is the list of calls and results in body order, which
is what a provider pairs up by call id.
-/

set_option autoImplicit false

namespace Opencodepp.Msg

open Opencodepp.Library

/-- Who speaks. -/
inductive Role
  | user
  | assistant
  | system
  | tool
  deriving Repr, DecidableEq

/-- Why the model stopped. -/
inductive FinishReason
  | endTurn
  | maxTokens
  | toolUse
  | canceled
  | error
  | permissionDenied
  | unknown
  deriving Repr, DecidableEq

namespace Role

def toBytes : Role → Bytes
  | .user => str "user"
  | .assistant => str "assistant"
  | .system => str "system"
  | .tool => str "tool"

end Role

namespace FinishReason

def toBytes : FinishReason → Bytes
  | .endTurn => str "end_turn"
  | .maxTokens => str "max_tokens"
  | .toolUse => str "tool_use"
  | .canceled => str "canceled"
  | .error => str "error"
  | .permissionDenied => str "permission_denied"
  | .unknown => str "unknown"

end FinishReason

/-- A call of a tool by the model. -/
structure ToolCall where
  id : Bytes
  name : Bytes
  inputJson : Bytes
  finished : Bool
  deriving Repr, DecidableEq

/-- The answer to the call with the given id. -/
structure ToolResult where
  callId : Bytes
  content : Bytes
  isError : Bool
  deriving Repr, DecidableEq

/-- The unit of a message body. -/
inductive Part
  | text (content : Bytes)
  | reasoning (content : Bytes)
  | imageUrl (url : Bytes)
  | binary (mime : Bytes) (data : Bytes)
  | toolCall (call : ToolCall)
  | toolResult (result : ToolResult)
  | finish (reason : FinishReason)
  deriving Repr, DecidableEq

namespace Part

def asToolCall : Part → Option ToolCall
  | .toolCall call => some call
  | _ => none

def asToolResult : Part → Option ToolResult
  | .toolResult result => some result
  | _ => none

def asFinish : Part → Option FinishReason
  | .finish reason => some reason
  | _ => none

end Part

/-- One message of a session. -/
structure Message where
  id : Bytes
  sessionId : Bytes
  role : Role
  model : Bytes
  parts : List Part
  createdAt : UInt64
  deriving Repr, DecidableEq

namespace Message

/-- The text parts of a message, concatenated. -/
def contentText (m : Message) : Bytes :=
  m.parts.flatMap fun
    | .text content => content
    | _ => []

def toolCalls (m : Message) : List ToolCall := m.parts.filterMap Part.asToolCall

def toolResults (m : Message) : List ToolResult := m.parts.filterMap Part.asToolResult

/-- The reason of the first finish part. -/
def finishReason? (m : Message) : Option FinishReason := (m.parts.filterMap Part.asFinish).head?

end Message

end Opencodepp.Msg
