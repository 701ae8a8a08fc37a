import Opencodepp.Agent.Session
import Opencodepp.Config.Schema
import Opencodepp.Provider.Catalog

/-!
# The options of a session

A session is set up from a configuration: an agent is picked, its model is resolved, by the
catalog or by passing its name on to a compatible host, and a provider is bound to it.
-/

set_option autoImplicit false

namespace Opencodepp.Agent

open Opencodepp.Core
open Opencodepp.Library
open Opencodepp.Provider

/-- The agent with an id, or the first one. -/
def pickAgent (agents : List AgentCfg) (agentId : Bytes) : Option AgentCfg :=
  (agents.find? (·.id = agentId)).or agents.head?

/-- A model the catalog does not know is one of a compatible host. -/
def projectModel (cfg : Config) (modelId : Bytes) : Except Failure ModelSpec :=
  match resolveModel modelId with
  | .ok model => .ok model
  | .error e =>
      match cfg.providers.find? (·.id = str "openai_compat") with
      | none => .error e
      | some compat =>
          if compat.baseUrl = [] then .error e
          else .ok ⟨str "openai_compat", str "openai", modelId, compat.baseUrl, 0, 0⟩

/-- The provider a model is bound to, and the model with the origin it is reached at. -/
def bindProvider (first : ProviderCfg) (cfg : Config) (model : ModelSpec) :
    ProviderCfg × ModelSpec :=
  match cfg.providers.find? (·.id = model.provider) with
  | none =>
      (first,
        if model.baseUrl ≠ [] && first.baseUrl ≠ [] then { model with baseUrl := first.baseUrl }
        else model)
  | some bound =>
      (bound, if bound.baseUrl ≠ [] then { model with baseUrl := bound.baseUrl } else model)

/-- The options of a session for an agent; store, sink and session id are the caller's. -/
def sessionOptionsFromConfig (cfg : Config) (agentId sessionId : Bytes) (hasStore hasSink : Bool) :
    Except Failure SessionOptions :=
  match cfg.providers with
  | [] => .error (.of .eInvalidCfg)
  | first :: _ =>
      let modelId := ((pickAgent cfg.agents agentId).map (·.model)).getD []
      if modelId = [] then .error (.of .eInvalidCfg)
      else
        match projectModel cfg modelId with
        | .error e => .error e
        | .ok model =>
            let bound := bindProvider first cfg model
            .ok
              { id := sessionId
                maxTokensPerTask := cfg.budget.maxTokensPerTask
                agentMaxTokens := cfg.agents.map (·.maxTokens)
                model := bound.2
                providerId := bound.1.id
                apiKey := bound.1.apiKey
                hasStore := hasStore
                hasSink := hasSink }

/-- The options a task of the engine runs with: no agent is asked for. -/
def taskOptions (cfg : Config) (sessionId : Bytes) (hasSink : Bool) :
    Except Failure SessionOptions :=
  sessionOptionsFromConfig cfg [] sessionId true hasSink

/-! ## What the options take from an agent -/

/-- The name a model id goes by on the wire. -/
def wireName (modelId : Bytes) : Bytes := ((findModel modelId).map (·.apiModelName)).getD modelId

theorem apiModelName_of_projectModel {cfg : Config} {modelId : Bytes} {model : ModelSpec}
    (projected : projectModel cfg modelId = .ok model) : model.apiModelName = wireName modelId := by
  unfold projectModel resolveModel at projected
  unfold wireName
  cases found : findModel modelId with
  | none =>
      simp only [found] at projected
      split at projected
      · cases projected
      · split at projected
        · cases projected
        · cases projected
          rfl
  | some m =>
      cases listed : findProvider m.provider with
      | none =>
          simp only [found, listed] at projected
          cases projected
          rfl
      | some p =>
          simp only [found, listed] at projected
          cases projected
          rfl

theorem apiModelName_of_bindProvider (first : ProviderCfg) (cfg : Config) (model : ModelSpec) :
    (bindProvider first cfg model).2.apiModelName = model.apiModelName := by
  unfold bindProvider
  split
  · dsimp only
    split <;> rfl
  · dsimp only
    split <;> rfl

/-- **The options** have the model of the agent picked, and the cap of the whole list. -/
theorem sessionOptionsFromConfig_ok {cfg : Config} {agentId sessionId : Bytes}
    {hasStore hasSink : Bool} {options : SessionOptions}
    (made : sessionOptionsFromConfig cfg agentId sessionId hasStore hasSink = .ok options) :
    ∃ agent, pickAgent cfg.agents agentId = some agent ∧
      options.model.apiModelName = wireName agent.model ∧
      options.maxTokensPerTask = cfg.budget.maxTokensPerTask ∧
      options.agentMaxTokens = cfg.agents.map (·.maxTokens) := by
  unfold sessionOptionsFromConfig at made
  split at made
  · cases made
  · dsimp only at made
    split at made
    · cases made
    · next given =>
        cases picked : pickAgent cfg.agents agentId with
        | none => simp [picked] at given
        | some agent =>
            simp only [picked, Option.map_some, Option.getD_some] at made
            split at made
            · cases made
            · next model projected =>
                cases made
                refine ⟨agent, rfl, ?_, rfl, rfl⟩
                dsimp only
                rw [apiModelName_of_bindProvider]
                exact apiModelName_of_projectModel projected

end Opencodepp.Agent
