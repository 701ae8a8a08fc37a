import Opencodepp.Library.Transition
import Opencodepp.Provider.Anthropic
import Opencodepp.Provider.Interface
import Opencodepp.Provider.Gemini
import Opencodepp.Provider.OpenAi

/-!
# The provider factory

The provider a session talks to is one of three adapters, chosen by the provider
id of the configuration.
-/

set_option autoImplicit false

namespace Opencodepp.Provider

open Opencodepp.Core
open Opencodepp.Library
open Opencodepp.Msg

/-- The state of whichever adapter was chosen. -/
inductive Adapter
  | anthropic (state : Anthropic.State)
  | openAi (state : OpenAi.State)
  | gemini (state : Gemini.State)
  deriving DecidableEq

namespace Adapter

def resetStream : Adapter → Adapter
  | .anthropic state => .anthropic { state with stream := .reset }
  | .openAi state => .openAi { state with stream := .reset }
  | .gemini state => .gemini { state with stream := .reset }

/-- One frame.  No adapter reports a failure here: bad frames become events. -/
def parseFrame (adapter : Adapter) (frame : StreamFrame) :
    ErrorCode × Adapter × List StreamEvent :=
  match adapter with
  | .anthropic state =>
      let result := Anthropic.parseFrame state.stream frame
      (.success, .anthropic { state with stream := result.1 }, result.2)
  | .openAi state =>
      let result := OpenAi.parseFrame state.stream frame
      (.success, .openAi { state with stream := result.1 }, result.2)
  | .gemini state =>
      let result := Gemini.parseFrame state.stream frame
      (.success, .gemini { state with stream := result.1 }, result.2)

def buildRequest (adapter : Adapter) (msgs : List Message) (tools : List ToolSpec)
    (model : ModelSpec) (budget : Budget) : Except Failure RequestBytes :=
  match adapter with
  | .anthropic state => Anthropic.buildRequest state msgs tools model budget
  | .openAi state => OpenAi.buildRequest state msgs tools model budget
  | .gemini state => Gemini.buildRequest state msgs tools model budget

end Adapter

/-- The origin of a configuration: its own, or the catalog's. -/
def originOf (cfg : ProviderConfig) (catalog : String) : Bytes :=
  if cfg.baseUrl = [] then str catalog else cfg.baseUrl

/-- Build the adapter a configuration names. -/
def makeProvider (cfg : ProviderConfig) : Except Failure Adapter :=
  if cfg.id = str "openai_compat" then
    if cfg.baseUrl = [] then .error (.of .eInvalidCfg)
    else .ok (.openAi (OpenAi.make cfg.baseUrl cfg.apiKey cfg.defaultMaxTokens cfg.path))
  else if cfg.id = str "anthropic" then
    .ok (.anthropic (Anthropic.make (originOf cfg "https://api.anthropic.com") cfg.apiKey
      cfg.defaultMaxTokens))
  else if cfg.id = str "openai" then
    .ok (.openAi (OpenAi.make (originOf cfg "https://api.openai.com/v1") cfg.apiKey
      cfg.defaultMaxTokens (str "/chat/completions")))
  else if cfg.id = str "google" then
    .ok (.gemini (Gemini.make (originOf cfg "https://generativelanguage.googleapis.com/v1beta")
      cfg.apiKey cfg.defaultMaxTokens))
  else .error (.of .eModelUnsup)

/-- The engine's provider: the factory and its adapters behind the interface. -/
def factory : Provider where
  State := Adapter
  make := makeProvider
  resetStream := Adapter.resetStream
  buildRequest := Adapter.buildRequest
  parseFrame := Adapter.parseFrame

/-!
## The events of a stream

An adapter takes the frames of a stream one at a time; `heard` is all it emits for them.  For each
of the three adapters this is the output of the machine its own module describes.
-/

/-- One frame through an adapter, with the events it emits. -/
def hear (p : Adapter) (frame : StreamFrame) : Adapter × List StreamEvent := (p.parseFrame frame).2

/-- What an adapter makes of a stream. -/
def heard (p : Adapter) (frames : List StreamFrame) : List StreamEvent :=
  (Machine.feed hear p frames).2

theorem heard_openAi (frames : List StreamFrame) : ∀ st : OpenAi.State,
    heard (.openAi st) frames = (Machine.feed OpenAi.parseFrame st.stream frames).2 := by
  induction frames with
  | nil =>
      intro st
      rfl
  | cons frame rest inductionHypothesis =>
      intro st
      exact congrArg ((OpenAi.parseFrame st.stream frame).2 ++ ·)
        (inductionHypothesis { st with stream := (OpenAi.parseFrame st.stream frame).1 })

theorem heard_anthropic (frames : List StreamFrame) : ∀ st : Anthropic.State,
    heard (.anthropic st) frames = (Machine.feed Anthropic.parseFrame st.stream frames).2 := by
  induction frames with
  | nil =>
      intro st
      rfl
  | cons frame rest inductionHypothesis =>
      intro st
      exact congrArg ((Anthropic.parseFrame st.stream frame).2 ++ ·)
        (inductionHypothesis { st with stream := (Anthropic.parseFrame st.stream frame).1 })

theorem heard_gemini (frames : List StreamFrame) : ∀ st : Gemini.State,
    heard (.gemini st) frames = (Machine.feed Gemini.parseFrame st.stream frames).2 := by
  induction frames with
  | nil =>
      intro st
      rfl
  | cons frame rest inductionHypothesis =>
      intro st
      exact congrArg ((Gemini.parseFrame st.stream frame).2 ++ ·)
        (inductionHypothesis { st with stream := (Gemini.parseFrame st.stream frame).1 })

end Opencodepp.Provider
