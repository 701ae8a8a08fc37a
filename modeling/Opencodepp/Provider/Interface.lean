import Opencodepp.Core.Error
import Opencodepp.Msg.Message

/-!
# The provider interface

The one vocabulary through which the agent talks to a model: how a request is
built, and how the frames of a streamed answer are normalised into stream events.
An adapter is a state machine over frames; `Provider` is its interface, so what is
proved for every `Provider` holds for every wire format.
-/

set_option autoImplicit false

namespace Opencodepp.Provider

open Opencodepp.Core
open Opencodepp.Library
open Opencodepp.Msg

/-- A tool as the model is offered it. -/
structure ToolSpec where
  id : Bytes
  name : Bytes
  description : Bytes
  inputSchemaJson : Bytes
  deriving Repr, DecidableEq

/-- The resolved model. -/
structure ModelSpec where
  provider : Bytes
  apiFamily : Bytes
  apiModelName : Bytes
  baseUrl : Bytes
  contextWindow : UInt32
  defaultMaxTokens : UInt32
  deriving Repr, DecidableEq

/-- The limits of one request; zero means the provider's default. -/
structure Budget where
  maxOutputTokens : UInt32
  maxContextTokens : UInt32
  maxToolArgsBytes : UInt32
  deriving Repr, DecidableEq

/-- A header of a request. -/
structure HttpHeader where
  name : Bytes
  value : Bytes
  deriving Repr, DecidableEq

/-- A request ready for the wire. -/
structure RequestBytes where
  method : Bytes
  path : Bytes
  headers : List HttpHeader
  body : Bytes
  deriving Repr, DecidableEq

/-- One frame of a streamed answer. -/
structure StreamFrame where
  event : Bytes
  data : Bytes
  deriving Repr, DecidableEq

/-- Token counts reported by the provider. -/
structure Usage where
  inputTokens : UInt64
  outputTokens : UInt64
  cachedInputTokens : UInt64
  deriving Repr, DecidableEq

/-- No tokens. -/
def Usage.zero : Usage := ⟨0, 0, 0⟩

/-- A finished tool call, as an adapter assembles it. -/
structure ToolCallDone where
  id : Bytes
  name : Bytes
  inputJson : Bytes
  deriving Repr, DecidableEq

/-- The normalised events of a stream. -/
inductive StreamEvent
  | textDelta (text : Bytes)
  | reasoningDelta (text : Bytes)
  | toolCallDelta (id name argsFragment : Bytes)
  | toolCallDone (call : ToolCallDone)
  | messageStart
  | messageDone (finish : FinishReason) (usage : Usage)
  | providerError (ec : ErrorCode) (message : Bytes)
  deriving Repr, DecidableEq

/-- What a provider is constructed from. -/
structure ProviderConfig where
  id : Bytes
  apiKey : Bytes
  baseUrl : Bytes
  path : Bytes
  defaultMaxTokens : UInt32
  deriving Repr, DecidableEq

/-- An adapter: a state over frames, and the requests it builds.  `make` is the
factory for the session's configuration. -/
structure Provider where
  State : Type
  make : ProviderConfig → Except Failure State
  resetStream : State → State
  buildRequest : State → List Message → List ToolSpec → ModelSpec → Budget →
    Except Failure RequestBytes
  parseFrame : State → StreamFrame → ErrorCode × State × List StreamEvent

/-! ## Origins -/

/-- The parts of an origin. -/
structure UrlParts where
  scheme : Bytes
  host : Bytes
  port : Nat
  path : Bytes
  deriving Repr, DecidableEq

/-- A path without its trailing slashes. -/
def dropTrailingSlashes (path : Bytes) : Bytes := (path.reverse.dropWhile (· = slash)).reverse

/-- Split an authority at its last colon. -/
def splitPort (authority : Bytes) : Option (Bytes × Bytes) :=
  let port := (authority.reverse.takeWhile (· ≠ ch ':')).reverse
  if port.length = authority.length then none
  else some (authority.take (authority.length - port.length - 1), port)

/-- The value of the digits of a port, in a signed number of 64 bits.  The language leaves a sum that
overflows undefined; here it wraps around, as on the machines the program runs on. -/
def portValue (digits : Bytes) : Int64 :=
  digits.foldl (fun v c => v * 10 + Int64.ofNat (c.toNat - (ch '0').toNat)) 0

/-- The host and port of an authority; port zero stands for the scheme's default. -/
def parseAuthority (authority : Bytes) : Except Failure (Bytes × Nat) :=
  match splitPort authority with
  | none => .ok (authority, 0)
  | some (host, port) =>
      if port = [] || !port.all isDigit then .error (.of .eInvalidCfg)
      else
        let v := portValue port
        if v < 1 || 65535 < v then .error (.of .eInvalidCfg)
        else .ok (host, v.toNatClampNeg)

/-- Split `scheme://host[:port][/base]` into its parts. -/
def splitUrl (url : Bytes) : Except Failure UrlParts :=
  match indexOf (str "://") url with
  | none | some 0 => .error (.of .eInvalidCfg)
  | some sep =>
      let scheme := url.take sep
      if scheme ≠ str "http" && scheme ≠ str "https" then .error (.of .eInvalidCfg)
      else
        let rest := url.drop (sep + 3)
        let authority := rest.takeWhile (· ≠ slash)
        let path := dropTrailingSlashes (rest.dropWhile (· ≠ slash))
        if authority = [] then .error (.of .eInvalidCfg)
        else
          match parseAuthority authority with
          | .error e => .error e
          | .ok (host, port) =>
              if host = [] then .error (.of .eInvalidCfg)
              else .ok ⟨scheme, host, port, path⟩

/-! ## A sequence of stream events

The events that decide a round, picked out of all that an adapter has emitted: the finished
calls, the ends of the message with the usage they report, and the errors. -/

/-- The finished calls. -/
def callsIn (events : List StreamEvent) : List ToolCallDone :=
  events.filterMap fun
    | .toolCallDone call => some call
    | _ => none

/-- The ends of the message. -/
def endingsIn (events : List StreamEvent) : List (FinishReason × Usage) :=
  events.filterMap fun
    | .messageDone finish usage => some (finish, usage)
    | _ => none

/-- The errors the provider has reported. -/
def errorsIn (events : List StreamEvent) : List ErrorCode :=
  events.filterMap fun
    | .providerError ec _ => some ec
    | _ => none

/-- A part of the answer that is still going on. -/
def StreamEvent.isDelta : StreamEvent → Bool
  | .textDelta _ | .reasoningDelta _ | .toolCallDelta _ _ _ => true
  | _ => false

section Append

variable (first second : List StreamEvent)

@[simp] theorem callsIn_append : callsIn (first ++ second) = callsIn first ++ callsIn second :=
  List.filterMap_append

@[simp] theorem endingsIn_append :
    endingsIn (first ++ second) = endingsIn first ++ endingsIn second :=
  List.filterMap_append

@[simp] theorem errorsIn_append : errorsIn (first ++ second) = errorsIn first ++ errorsIn second :=
  List.filterMap_append

end Append

section Deltas

variable {events : List StreamEvent}

theorem callsIn_of_deltas (deltas : ∀ e ∈ events, e.isDelta = true) : callsIn events = [] := by
  refine List.filterMap_eq_nil_iff.mpr fun e member => ?_
  have delta := deltas e member
  cases e <;> first | rfl | cases delta

theorem endingsIn_of_deltas (deltas : ∀ e ∈ events, e.isDelta = true) : endingsIn events = [] := by
  refine List.filterMap_eq_nil_iff.mpr fun e member => ?_
  have delta := deltas e member
  cases e <;> first | rfl | cases delta

theorem errorsIn_of_deltas (deltas : ∀ e ∈ events, e.isDelta = true) : errorsIn events = [] := by
  refine List.filterMap_eq_nil_iff.mpr fun e member => ?_
  have delta := deltas e member
  cases e <;> first | rfl | cases delta

end Deltas

section Calls

variable (calls : List ToolCallDone)

@[simp] theorem callsIn_calls : callsIn (calls.map .toolCallDone) = calls := by
  unfold callsIn
  rw [List.filterMap_map]
  exact List.filterMap_some

@[simp] theorem endingsIn_calls : endingsIn (calls.map .toolCallDone) = [] := by
  unfold endingsIn
  rw [List.filterMap_map]
  exact List.filterMap_eq_nil_iff.mpr fun _ _ => rfl

@[simp] theorem errorsIn_calls : errorsIn (calls.map .toolCallDone) = [] := by
  unfold errorsIn
  rw [List.filterMap_map]
  exact List.filterMap_eq_nil_iff.mpr fun _ _ => rfl

end Calls

section Done

variable (finish : FinishReason) (usage : Usage)

@[simp] theorem callsIn_messageDone : callsIn [.messageDone finish usage] = [] := rfl

@[simp] theorem endingsIn_messageDone :
    endingsIn [.messageDone finish usage] = [(finish, usage)] := rfl

@[simp] theorem errorsIn_messageDone : errorsIn [.messageDone finish usage] = [] := rfl

end Done

end Opencodepp.Provider
