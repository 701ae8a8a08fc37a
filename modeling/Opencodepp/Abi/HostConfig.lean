import Mathlib.Data.List.Basic
import Opencodepp.Agent.Options

/-!
# The configuration a host hands over

A host configures the engine by a file, by the fields of its configuration record, or by both:
the fields it sets are laid over what the file holds.  The agent it names is updated or added
there, and that is all its choice does: a task picks its agent without it, and takes its token
cap from the first agent that sets one.  The two agree with the host's choice only when the
entries they use happen to (`agent_choice_iff`).
-/

set_option autoImplicit false

namespace Opencodepp.Abi

open Opencodepp.Agent
open Opencodepp.Library

/-- A callback of the host, by its address. -/
abbrev Callback := Nat

/-- The configuration record; what may be NULL is optional. -/
structure HostConfig where
  version : UInt32
  workspace : Option Bytes
  configPath : Option Bytes
  promptDir : Option Bytes
  provider : Option Bytes
  baseUrl : Option Bytes
  apiKey : Option Bytes
  model : Option Bytes
  agent : Option Bytes
  networkTimeoutMs : UInt32
  toolPolicy : Nat
  memoryMaxEntries : UInt32
  memoryMaxEntriesPerTask : UInt32
  memoryMaxValueChars : UInt32
  onEvent : Option Callback
  onPermission : Option Callback
  onConsent : Option Callback
  onLog : Option Callback
  userdata : Nat
  deriving Repr, DecidableEq

/-- Rewrite the first entry that is meant, or add a new one at the end. -/
def overlayEntry {α : Type} (meant : α → Bool) (write : α → α) (new : α) : List α → List α
  | [] => [new]
  | a :: rest => if meant a then write a :: rest else a :: overlayEntry meant write new rest

def overlayProvider (c : HostConfig) (cfg : Config) : Config :=
  let id := c.provider.getD (str "openai_compat")
  let new : ProviderCfg :=
    ⟨id, c.apiKey.getD (str "sk-test"), c.baseUrl.getD (str "http://127.0.0.1:8080"),
      c.model.getD (str "mock-model")⟩
  { cfg with
    providers := overlayEntry (·.id = id)
      (fun p => ⟨p.id, c.apiKey.getD p.apiKey, c.baseUrl.getD p.baseUrl,
        c.model.getD p.defaultModel⟩) new cfg.providers }

/-- The agent a host asks for. -/
def HostConfig.agentId (c : HostConfig) : Bytes := c.agent.getD (str "default")

def overlayAgent (c : HostConfig) (cfg : Config) : Config :=
  { cfg with
    agents := overlayEntry (·.id = c.agentId)
      (fun a => ⟨a.id, c.model.getD a.model, a.maxTokens⟩)
      ⟨c.agentId, c.model.getD (str "mock-model"), 0⟩ cfg.agents }

/-- A number the host leaves at zero keeps what is configured. -/
def orKeep (given kept : UInt32) : UInt32 := if given = 0 then kept else given

/-- The configuration of the file with the host's fields over it. -/
def overlaid (c : HostConfig) (file : Config) : Config :=
  let cfg := overlayAgent c (overlayProvider c file)
  { cfg with
    network.timeoutMs := orKeep c.networkTimeoutMs cfg.network.timeoutMs
    memory.maxEntries := orKeep c.memoryMaxEntries cfg.memory.maxEntries
    memory.maxEntriesPerTask := orKeep c.memoryMaxEntriesPerTask cfg.memory.maxEntriesPerTask
    memory.maxValueChars := orKeep c.memoryMaxValueChars cfg.memory.maxValueChars }

/-! ## The agent of a task -/

/-- After an overlay the entry that was meant is there. -/
theorem find_overlayEntry {α : Type} {meant : α → Bool} {write : α → α} {new : α}
    (same : ∀ a, meant a = true → meant (write a) = true) (added : meant new = true)
    (entries : List α) : ∃ a, (overlayEntry meant write new entries).find? meant = some a := by
  induction entries with
  | nil => exact ⟨new, by simp [overlayEntry, added]⟩
  | cons first rest inductionHypothesis =>
      by_cases here : meant first = true
      · exact ⟨write first, by simp [overlayEntry, here, same first here]⟩
      · obtain ⟨a, found⟩ := inductionHypothesis
        exact ⟨a, by simp [overlayEntry, here, found]⟩

/-- The agent the host has chosen is configured. -/
theorem chosen_configured (c : HostConfig) (file : Config) :
    ∃ chosen, (overlaid c file).agents.find? (·.id = c.agentId) = some chosen := by
  refine find_overlayEntry ?_ ?_ _
  · intro a meant
    exact meant
  · simp

/-- The cap of an agent: its own, or the budget's. -/
def capOf (cfg : Config) (a : AgentCfg) : UInt32 :=
  if a.maxTokens = 0 then cfg.budget.maxTokensPerTask else a.maxTokens

/-- The cap of a session is the one of the first agent that sets one. -/
theorem budgetCap_eq {cfg : Config} {options : SessionOptions}
    (default : options.maxTokensPerTask = cfg.budget.maxTokensPerTask)
    (caps : options.agentMaxTokens = cfg.agents.map (·.maxTokens)) :
    budgetCap options =
      ((cfg.agents.find? (·.maxTokens ≠ 0)).map (·.maxTokens)).getD
        cfg.budget.maxTokensPerTask := by
  unfold budgetCap
  rw [default, caps, List.find?_map]
  rfl

/-- The first cap that is set is the one of the given agent, if any is set. -/
def FirstCapIs (cfg : Config) (chosen : AgentCfg) : Prop :=
  ∀ first, cfg.agents.find? (·.maxTokens ≠ 0) = some first → first.maxTokens = capOf cfg chosen

theorem budgetCap_eq_capOf_iff {cfg : Config} {options : SessionOptions} {chosen : AgentCfg}
    (default : options.maxTokensPerTask = cfg.budget.maxTokensPerTask)
    (caps : options.agentMaxTokens = cfg.agents.map (·.maxTokens)) (member : chosen ∈ cfg.agents) :
    budgetCap options = capOf cfg chosen ↔ FirstCapIs cfg chosen := by
  rw [budgetCap_eq default caps]
  unfold FirstCapIs
  cases found : cfg.agents.find? (·.maxTokens ≠ 0) with
  | some first => simp
  | none =>
      have unset : chosen.maxTokens = 0 := by
        simpa using List.find?_eq_none.mp found chosen member
      simp [capOf, unset]

/-- **A task uses the agent the host has chosen exactly when the agent it picks goes by the same
model on the wire, and the first cap that is set is the chosen agent's.** -/
theorem agent_choice_iff {c : HostConfig} {file : Config} {sessionId : Bytes} {hasSink : Bool}
    {options : SessionOptions}
    (made : taskOptions (overlaid c file) sessionId hasSink = .ok options) :
    ∃ chosen picked,
      (overlaid c file).agents.find? (·.id = c.agentId) = some chosen ∧
      pickAgent (overlaid c file).agents [] = some picked ∧
      ((options.model.apiModelName = wireName chosen.model ∧
        budgetCap options = capOf (overlaid c file) chosen) ↔
        (wireName picked.model = wireName chosen.model ∧ FirstCapIs (overlaid c file) chosen)) := by
  obtain ⟨chosen, configured⟩ := chosen_configured c file
  obtain ⟨picked, pick, name, default, caps⟩ := sessionOptionsFromConfig_ok made
  refine ⟨chosen, picked, configured, pick, ?_⟩
  rw [name, budgetCap_eq_capOf_iff default caps (List.mem_of_find?_eq_some configured)]

/-- A record in which only the agent is set. -/
def hostAgent (agent : Option Bytes) : HostConfig :=
  ⟨1, none, none, none, none, none, none, none, agent, 0, 0, 0, 0, 0, none, none, none, none, 0⟩

/-- A session of the engine over a configuration. -/
def optionsOf (cfg : Config) : SessionOptions :=
  match taskOptions cfg (str "s") true with
  | .ok options => options
  | .error _ => ⟨[], 0, [], ⟨[], [], [], [], 0, 0⟩, [], [], false, false⟩

/-- Two agents, of which only the second has a cap. -/
def oneCap : Config :=
  { providers := [⟨str "openai", str "k", [], []⟩]
    agents := [⟨str "a", str "gpt-4o", 0⟩, ⟨str "b", str "gpt-5", 200⟩] }

/-- A host that chooses the second agent and gives it the model of the first. -/
def hostModel : HostConfig := { hostAgent (some (str "b")) with model := some (str "gpt-4o") }

/-- The task has the model and the cap of the second agent, though it picks the first. -/
theorem agent_choice_one_cap :
    taskOptions (overlaid hostModel oneCap) (str "s") true =
      .ok (optionsOf (overlaid hostModel oneCap)) ∧
    ∃ chosen, (overlaid hostModel oneCap).agents.find? (·.id = hostModel.agentId) = some chosen ∧
      chosen = ⟨str "b", str "gpt-4o", 200⟩ ∧
      (optionsOf (overlaid hostModel oneCap)).model.apiModelName = wireName chosen.model ∧
      budgetCap (optionsOf (overlaid hostModel oneCap)) = capOf (overlaid hostModel oneCap) chosen := by
  have made : taskOptions (overlaid hostModel oneCap) (str "s") true =
      .ok (optionsOf (overlaid hostModel oneCap)) := rfl
  obtain ⟨chosen, picked, configured, pick, decided⟩ := agent_choice_iff made
  have second : (overlaid hostModel oneCap).agents.find? (·.id = hostModel.agentId) =
      some ⟨str "b", str "gpt-4o", 200⟩ := by decide +kernel
  have first : pickAgent (overlaid hostModel oneCap).agents [] =
      some ⟨str "a", str "gpt-4o", 0⟩ := by decide +kernel
  obtain rfl := Option.some.inj (configured.symm.trans second)
  obtain rfl := Option.some.inj (pick.symm.trans first)
  refine ⟨made, _, configured, rfl, decided.mpr ⟨rfl, fun capped set => ?_⟩⟩
  have only : (overlaid hostModel oneCap).agents.find? (·.maxTokens ≠ 0) =
      some ⟨str "b", str "gpt-4o", 200⟩ := by decide +kernel
  obtain rfl := Option.some.inj (set.symm.trans only)
  rfl

/-- Two agents, of which the host chooses the second. -/
def twoAgents : Config :=
  { providers := [⟨str "openai", str "k", [], []⟩]
    agents := [⟨str "a", str "gpt-4o", 100⟩, ⟨str "b", str "gpt-5", 200⟩] }

/-- The task goes to the model of the first agent, under its cap. -/
theorem task_ignores_chosen_agent :
    taskOptions (overlaid (hostAgent (some (str "b"))) twoAgents) (str "s") true =
      .ok (optionsOf (overlaid (hostAgent (some (str "b"))) twoAgents)) ∧
    (overlaid (hostAgent (some (str "b"))) twoAgents).agents.find? (·.id = str "b") =
      some ⟨str "b", str "gpt-5", 200⟩ ∧
    (optionsOf (overlaid (hostAgent (some (str "b"))) twoAgents)).model.apiModelName =
      str "gpt-4o" ∧
    wireName (str "gpt-5") = str "gpt-5" ∧
    budgetCap (optionsOf (overlaid (hostAgent (some (str "b"))) twoAgents)) = 100 := by
  exact ⟨rfl, by decide +kernel, by decide +kernel, by decide +kernel, by decide +kernel⟩

end Opencodepp.Abi
