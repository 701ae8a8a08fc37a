import Opencodepp.Msg.Tokens
import Opencodepp.Provider.Wire

/-!
# Context assembly

The tiered plan of one request: a system message composed of the prompt templates and
the workspace entries that fit, then the history, of which the newest turns are always
kept and the older ones while the budget holds.  Every cut is recorded.
-/

set_option autoImplicit false

namespace Opencodepp.Prompt

open Opencodepp.Core
open Opencodepp.Library
open Opencodepp.Msg
open Opencodepp.Provider
open Opencodepp.Util

/-! ## Templates -/

inductive PromptPartKind
  | system
  | template
  | tools
  deriving Repr, DecidableEq

structure PromptPart where
  kind : PromptPartKind
  text : Bytes
  deriving Repr, DecidableEq

structure PromptRef where
  id : Bytes
  parts : List PromptPart
  deriving Repr, DecidableEq

/-- The compiled templates. -/
abbrev PromptRegistry := List PromptRef

def PromptRegistry.find (reg : PromptRegistry) (id : Bytes) : Option PromptRef :=
  List.find? (·.id = id) reg

/-! ## The cost of the offered tools -/

/-- One tool in the projection of a wire family. -/
def toolProjection (family : Bytes) (t : ToolSpec) : JVal :=
  if family = str "anthropic" then
    jsonObject [("name", .string t.name), ("description", .string t.description),
      ("input_schema", schemaObject t.inputSchemaJson)]
  else
    let body := [("name", .string t.name), ("description", .string t.description),
      ("parameters", schemaObject t.inputSchemaJson)]
    if family = str "google" then jsonObject body
    else jsonObject [("type", jsonStr "function"), ("function", jsonObject body)]

/-- The tools parameter of a wire family. -/
def toolsSchemaJson (tools : List ToolSpec) (family : Bytes) : Bytes :=
  let list := JVal.array (tools.map (toolProjection family))
  toJson (if family = str "google" then .array [jsonObject [("functionDeclarations", list)]]
    else list)

def toolsSchemaTokens (tools : List ToolSpec) (family : Bytes) : Nat :=
  estimateTokens (toolsSchemaJson tools family) % 2 ^ 32

/-! ## Input and plan -/

/-- An entry of the workspace tier. -/
structure EnvEntry where
  key : Bytes
  text : Bytes
  deriving Repr, DecidableEq

inductive CutKind
  | omitted
  | truncated
  deriving Repr, DecidableEq

/-- One cut decision. -/
structure ContextEvent where
  kind : CutKind
  what : Bytes
  reason : Bytes
  deriving Repr, DecidableEq

structure ContextInput where
  registry : Option PromptRegistry
  systemIds : List Bytes
  messages : List Message
  tools : List ToolSpec
  wireFamily : Bytes
  env : List EnvEntry
  repo : List EnvEntry
  langStyle : Bytes
  examples : Bytes
  contextWindow : UInt32
  maxOutputTokens : UInt32
  targetTokens : UInt32
  hardCapTokens : UInt32
  availableTokens : UInt32
  recentAssistantTurns : UInt32
  edgeMode : Bool
  injectToolSchema : Bool

/-- The cuts in order, and their descriptions by kind. -/
structure CutLog where
  events : List ContextEvent
  omitted : List Bytes
  truncated : List Bytes
  deriving Repr, DecidableEq

namespace CutLog

def empty : CutLog := ⟨[], [], []⟩

def pushOmit (out : CutLog) (what reason : Bytes) : CutLog :=
  { out with
    events := out.events ++ [⟨.omitted, what, reason⟩]
    omitted := out.omitted ++ [what] }

def pushTruncate (out : CutLog) (what reason : Bytes) : CutLog :=
  { out with
    events := out.events ++ [⟨.truncated, what, reason⟩]
    truncated := out.truncated ++ [what] }

end CutLog

structure ContextPlan extends CutLog where
  messages : List Message
  estimatedTokens : Nat
  bytes : Nat
  tools : List ToolSpec
  toolTokens : Nat
  underTarget : Bool
  deriving Repr, DecidableEq

/-! ## Pieces -/

/-- Replace every occurrence of a mark; the replacement is not searched again. -/
def replaceAll (mark value : Bytes) : Nat → Bytes → Bytes
  | 0, s => s
  | fuel + 1, s =>
      match indexOf mark s with
      | none => s
      | some i => s.take i ++ value ++ replaceAll mark value fuel (s.drop (i + mark.length))

def fill (name : String) (value s : Bytes) : Bytes :=
  let mark := str "\x7b\x7b" ++ str name ++ str "\x7d\x7d"
  replaceAll mark value (s.length + 1) s

/-- Fill the placeholders of a template; unknown names stay as they are. -/
def substitute (text : Bytes) (input : ContextInput) (schemaText : Bytes) : Bytes :=
  fill "EXAMPLES" input.examples
    (fill "LANG_STYLE" input.langStyle (fill "TOOLS_SCHEMA" schemaText text))

def newestUserFloor : Nat := 800

/-- The longest length found by bisection whose text fits the budget. -/
def bisect (text : Bytes) (budget : Nat) : Nat → Nat → Nat → Nat
  | 0, lo, _ => lo
  | fuel + 1, lo, hi =>
      if lo < hi then
        let mid := (lo + hi + 1) / 2
        if estimateTokens (text.take mid) ≤ budget then bisect text budget fuel mid hi
        else bisect text budget fuel lo (mid - 1)
      else lo

/-- Shorten a text to a budget: the kept text and whether it was cut. -/
def truncateText (text : Bytes) (budget : Nat) : Bytes × Bool :=
  if estimateTokens text ≤ budget then (text, false)
  else
    (text.take (bisect text budget (text.length + 1) 0 text.length) ++
      str " [context truncated]", true)

/-- The budget of the request. -/
def resolveCap (input : ContextInput) : Nat :=
  let cap := if input.availableTokens ≠ 0 then input.availableTokens.toNat
    else input.hardCapTokens.toNat
  let cap :=
    if input.contextWindow ≠ 0 && input.maxOutputTokens ≠ 0 &&
        input.maxOutputTokens < input.contextWindow then
      min cap (input.contextWindow.toNat - input.maxOutputTokens.toNat)
    else cap
  max cap newestUserFloor

/-- The text of the system templates; none when an id is not registered. -/
def systemCore (reg : PromptRegistry) (input : ContextInput) : List Bytes → Option Bytes
  | [] => some []
  | id :: rest =>
      match reg.find id, systemCore reg input rest with
      | some ref, some tail =>
          some ((ref.parts.filter (·.kind ≠ .tools)).flatMap
            (fun part => substitute part.text input [] ++ [0x0a]) ++ tail)
      | _, _ => none

/-- What the assembly of the system text carries along. -/
structure SystemText where
  text : Bytes
  log : CutLog

/-- The tokens an entry of the workspace tier is charged. -/
def entryTokens (e : EnvEntry) : Nat := estimateTokens e.text % 2 ^ 32

/-- One entry of the workspace tier: kept when it fits the tier's budget.  The label is
the kind of entry, as it is reported when it is left out. -/
def tierEntry (label : String) (edgeMode : Bool) (tierBudget : Nat) (acc : SystemText)
    (e : EnvEntry) : SystemText :=
  let what := str label ++ e.key
  let t := entryTokens e
  if edgeMode then { acc with log := acc.log.pushOmit what (str "edge_mode") }
  else if tierBudget < t then
    { acc with log := acc.log.pushOmit what (str "budget (" ++ decimal t ++ str " tokens)") }
  else { acc with text := acc.text ++ e.text ++ [0x0a] }

/-- The index from which every message is kept: the start of the newest assistant
turns, or the newest message when there is no such turn. -/
def tierOneFrom (keepAssistant : Nat) (hist : List Message) : Nat :=
  let starts := ((List.range hist.length).reverse.filter fun i =>
    (hist[i]?.map (·.role)) = some .assistant).take keepAssistant
  match starts.getLast? with
  | some i => i
  | none => hist.length - 1

/-- What the pass over the history carries along. -/
structure Window where
  kept : List Message
  total : Nat
  log : CutLog

/-- The tokens a message of the history is charged. -/
def messageTokens (m : Message) : Nat := estimateMessageTokens m % 2 ^ 32

/-- One message of the history. -/
def windowStep (cap fixedTokens tierOne size : Nat) (acc : Window) (entry : Message × Nat) :
    Window :=
  let (m, i) := entry
  let est := messageTokens m
  if i < tierOne && cap < acc.total + est + fixedTokens then
    let reason := str "budget (" ++ decimal est ++ str " tokens)"
    { acc with log := acc.log.pushOmit (str "message " ++ m.id) reason }
  else
    let (text, cut) := truncateText m.contentText newestUserFloor
    if m.role = .user && i + 1 = size && cut then
      let copy := { m with parts := [.text text] }
      { kept := acc.kept ++ [copy]
        total := acc.total + estimateMessageTokens copy
        log := acc.log.pushTruncate (str "message " ++ m.id) (str "kNewestUserFloor") }
    else { acc with kept := acc.kept ++ [m], total := acc.total + est }

/-- The system message of a plan. -/
def systemMessage (text : Bytes) : Message := ⟨[], [], .system, [], [.text text], 0⟩

/-! ## Assembly -/

/-- The cost of the offered tools. -/
def toolTokens (input : ContextInput) : Nat :=
  if input.tools = [] then 0 else toolsSchemaTokens input.tools input.wireFamily

/-- The text of the system templates; none when one is missing. -/
def coreText (input : ContextInput) : Option Bytes :=
  let ids := if input.systemIds = [] then [str "SYSTEM_BASE"] else input.systemIds
  input.registry.bind fun reg => systemCore reg input ids

/-- What an entry of the workspace tier may cost.  The subtraction is unsigned: tools dearer than
the room wrap it around. -/
def tierBudget (input : ContextInput) : Nat :=
  (resolveCap input - newestUserFloor + 2 ^ 64 - toolTokens input) % 2 ^ 64

/-- The system text with the entries of the workspace tier. -/
def systemText (input : ContextInput) (core : Bytes) : SystemText :=
  let sys := input.env.foldl (tierEntry "env " input.edgeMode (tierBudget input)) ⟨core, .empty⟩
  input.repo.foldl (tierEntry "repo " input.edgeMode (tierBudget input)) sys

/-- The index from which the messages of a request are all kept. -/
def tierOne (input : ContextInput) : Nat :=
  let keep := if input.recentAssistantTurns = 0 then 1 else input.recentAssistantTurns.toNat
  tierOneFrom keep input.messages

/-- The pass over the history, beside a system text. -/
def messageWindow (input : ContextInput) (sys : SystemText) : Window :=
  let sysTokens := estimateTokens sys.text % 2 ^ 32
  input.messages.zipIdx.foldl
    (windowStep (resolveCap input) (sysTokens + toolTokens input) (tierOne input)
      input.messages.length)
    ⟨[], 0, sys.log⟩

/-- The schema of the tools behind the system text, in the prompt mode. -/
def injectSchema (input : ContextInput) (text : Bytes) : Bytes :=
  if input.injectToolSchema && input.tools ≠ [] then
    text ++ (if text = [] then [] else [0x0a]) ++ toolsSchemaJson input.tools input.wireFamily
  else text

/-- The plan of a request over the text of the system templates. -/
def contextPlan (input : ContextInput) (core : Bytes) : ContextPlan :=
  let sys := systemText input core
  let window := messageWindow input sys
  let sysText := injectSchema input sys.text
  let messages := systemMessage sysText :: window.kept
  let estimated :=
    (window.total + estimateTokens sysText % 2 ^ 32 + toolTokens input) % 2 ^ 32
  { toCutLog := window.log
    messages
    estimatedTokens := estimated
    bytes := sysText.length + (messages.map (·.contentText.length)).sum
    tools := input.tools
    toolTokens := toolTokens input
    underTarget := estimated ≤ input.targetTokens.toNat }

/-- Assemble the plan of one request. -/
def assembleContext (input : ContextInput) : Except Failure ContextPlan :=
  if input.messages = [] then .error (.of .eMissingCfg)
  else
    match coreText input with
    | none => .error (.of .eMissingCfg)
    | some core => .ok (contextPlan input core)

/-- An assembly that succeeds has a history and all of its templates. -/
theorem assembleContext_eq_ok {input : ContextInput} {plan : ContextPlan} :
    assembleContext input = .ok plan ↔
      input.messages ≠ [] ∧ ∃ core, coreText input = some core ∧ plan = contextPlan input core := by
  unfold assembleContext
  by_cases empty : input.messages = []
  · rw [if_pos empty]
    exact ⟨fun impossible => (by cases impossible), fun given => absurd empty given.1⟩
  · rw [if_neg empty]
    cases coreText input with
    | none => exact ⟨fun impossible => (by cases impossible), fun ⟨_, _, none_, _⟩ => by cases none_⟩
    | some core =>
        constructor
        · intro assembled
          cases assembled
          exact ⟨empty, core, rfl, rfl⟩
        · rintro ⟨-, core', found, planned⟩
          cases found
          rw [planned]

/-- **A plan starts with the system message.** -/
theorem messages_of_assembleContext {input : ContextInput} {plan : ContextPlan}
    (assembled : assembleContext input = .ok plan) :
    ∃ text rest, plan.messages = systemMessage text :: rest := by
  obtain ⟨-, core, -, planned⟩ := assembleContext_eq_ok.mp assembled
  exact ⟨_, _, by rw [planned]; rfl⟩

end Opencodepp.Prompt
