import Mathlib.Data.List.Basic
import Opencodepp.Provider.Factory

/-!
# Calls and results on the wire

What a request carries of the tool traffic: the blocks of calls and of results, in the order the
provider reads them, each with the part of the history it was made of.  `toolBlocks_built` says
that these are just the blocks the body of a built request holds.
-/

set_option autoImplicit false

namespace Opencodepp.Provider

open Opencodepp.Core
open Opencodepp.Library
open Opencodepp.Msg
open Opencodepp.Util

/-- Names of calls, the first under an id standing. -/
abbrev CallNames : Type := List (Bytes × Bytes)

/-- The names once a message has been passed. -/
def namesAfter (names : CallNames) (m : Message) : CallNames :=
  if m.role = .assistant then names ++ m.toolCalls.map fun call => (call.id, call.name) else names

/-! ## The blocks of a part -/

namespace OpenAi

def callBlock (call : ToolCall) : JVal :=
  jsonObject [("id", .string call.id), ("type", jsonStr "function"),
    ("function", jsonObject [("name", .string call.name), ("arguments", .string call.inputJson)])]

def resultBlock (result : ToolResult) : JVal :=
  jsonObject [("role", jsonStr "tool"), ("tool_call_id", .string result.callId),
    ("content", .string result.content)]

end OpenAi

namespace Anthropic

def callBlock (call : ToolCall) : Option JVal :=
  (toolInput call.inputJson).map fun input =>
    jsonObject [("type", jsonStr "tool_use"), ("id", .string call.id),
      ("name", .string call.name), ("input", input)]

def resultBlock (result : ToolResult) : JVal :=
  jsonObject [("type", jsonStr "tool_result"), ("tool_use_id", .string result.callId),
    ("content", .string result.content), ("is_error", .boolean result.isError)]

end Anthropic

namespace Gemini

def callBlock (call : ToolCall) : Option JVal :=
  (toolInput call.inputJson).map fun args =>
    jsonObject [("functionCall", jsonObject [("name", .string call.name), ("args", args)])]

def resultBlock (names : CallNames) (result : ToolResult) : Option JVal :=
  (names.lookup result.callId).map fun name =>
    jsonObject [("functionResponse", jsonObject [("name", .string name),
      ("response", jsonObject [("content", .string result.content),
        ("is_error", .boolean result.isError)])])]

end Gemini

/-- The block of a part: calls stand in messages of the assistant, results in those of the
user. -/
def toolBlock (p : Adapter) (names : CallNames) : Role → Part → Option JVal
  | .assistant, .toolCall call =>
      match p with
      | .openAi _ => some (OpenAi.callBlock call)
      | .anthropic _ => Anthropic.callBlock call
      | .gemini _ => Gemini.callBlock call
  | .user, .toolResult result =>
      match p with
      | .openAi _ => some (OpenAi.resultBlock result)
      | .anthropic _ => some (Anthropic.resultBlock result)
      | .gemini _ => Gemini.resultBlock names result
  | _, _ => none

/-- The blocks of a message, with their parts. -/
def wiredOf (p : Adapter) (names : CallNames) (m : Message) : List (Part × JVal) :=
  m.parts.filterMap fun part => (toolBlock p names m.role part).map fun block => (part, block)

/-- The blocks of a history. -/
def wired (p : Adapter) (names : CallNames) : List Message → List (Part × JVal)
  | [] => []
  | m :: rest => wiredOf p names m ++ wired p (namesAfter names m) rest

/-! ## The blocks in a body -/

/-- The blocks of calls and results in a body, in order. -/
def toolBlocks (p : Adapter) (root : JVal) : List JVal :=
  match p with
  | .openAi _ => ((getArr root "messages").getD []).flatMap fun m =>
      if getStr m "role" = str "tool" then [m] else (getArr m "tool_calls").getD []
  | .anthropic _ => ((getArr root "messages").getD []).flatMap fun m =>
      ((getArr m "content").getD []).filter fun b =>
        getStr b "type" = str "tool_use" || getStr b "type" = str "tool_result"
  | .gemini _ => ((getArr root "contents").getD []).flatMap fun m =>
      ((getArr m "parts").getD []).filter fun b =>
        (getObj b "functionCall").isSome || (getObj b "functionResponse").isSome

/-- The parts that have blocks, picked from the parts of a message. -/
theorem wiredOf_snd (p : Adapter) (names : CallNames) (m : Message) :
    (wiredOf p names m).map Prod.snd = m.parts.filterMap (toolBlock p names m.role) := by
  unfold wiredOf
  rw [List.map_filterMap]
  refine List.filterMap_congr fun part _ => ?_
  cases toolBlock p names m.role part <;> rfl

namespace OpenAi

/-- The blocks of a wire message of this family. -/
def blocksIn (m : JVal) : List JVal :=
  if getStr m "role" = str "tool" then [m] else (getArr m "tool_calls").getD []

theorem blocksIn_assistant (content : Bytes) (calls : List JVal) :
    (if content = [] && calls.isEmpty then []
      else
        [jsonObject ([("role", jsonStr "assistant")] ++
          (if content ≠ [] || calls.isEmpty then [("content", .string content)] else []) ++
          (if calls.isEmpty then [] else [("tool_calls", .array calls)]))]).flatMap blocksIn =
      calls := by
  cases calls with
  | nil => cases content <;> rfl
  | cons call rest => cases content <;> exact List.append_nil _

theorem blocksIn_wireMessage (st : State) (names : CallNames) (m : Message) :
    (wireMessage m).flatMap blocksIn = m.parts.filterMap (toolBlock (.openAi st) names m.role) := by
  have none_ {role : Role} (other : ∀ part, toolBlock (.openAi st) names role part = none) :
      m.parts.filterMap (toolBlock (.openAi st) names role) = [] :=
    List.filterMap_eq_nil_iff.mpr fun part _ => other part
  unfold wireMessage
  cases role : m.role with
  | system =>
      rw [none_ fun part => by cases part <;> rfl]
      dsimp only
      split <;> rfl
  | tool => exact (none_ fun part => by cases part <;> rfl).symm
  | user =>
      have results : m.parts.filterMap (toolBlock (.openAi st) names .user) =
          m.toolResults.map resultBlock := by
        unfold Message.toolResults
        rw [List.map_filterMap]
        refine List.filterMap_congr fun part _ => ?_
        cases part <;> rfl
      have text : (if emptyContent (buildUserContent m) then []
          else [jsonObject [("role", jsonStr "user"), ("content", buildUserContent m)]]).flatMap
            blocksIn = [] := by
        split <;> rfl
      dsimp only
      rw [results, List.flatMap_append, text, List.nil_append, List.flatMap_map,
        List.map_eq_flatMap]
      rfl
  | assistant =>
      have calls : m.parts.filterMap (toolBlock (.openAi st) names .assistant) =
          m.toolCalls.map callBlock := by
        unfold Message.toolCalls
        rw [List.map_filterMap]
        refine List.filterMap_congr fun part _ => ?_
        cases part <;> rfl
      rw [calls]
      exact blocksIn_assistant _ _

end OpenAi

namespace Anthropic

def isToolBlock (b : JVal) : Bool :=
  getStr b "type" = str "tool_use" || getStr b "type" = str "tool_result"

/-- The blocks of a wire message of this family. -/
def blocksIn (m : JVal) : List JVal := ((getArr m "content").getD []).filter isToolBlock

theorem blocksIn_wireMessage (st : State) (names : CallNames) (m : Message) :
    (wireMessage m).flatMap blocksIn =
      m.parts.filterMap (toolBlock (.anthropic st) names m.role) := by
  have held (role : String) (blocks : List JVal) :
      (if blocks.isEmpty then []
        else [jsonObject [("role", jsonStr role), ("content", .array blocks)]]).flatMap blocksIn =
        blocks.filter isToolBlock := by
    cases blocks with
    | nil => rfl
    | cons block rest => exact List.append_nil _
  unfold wireMessage
  cases role : m.role with
  | system => exact (List.filterMap_eq_nil_iff.mpr fun part _ => by cases part <;> rfl).symm
  | tool => exact (List.filterMap_eq_nil_iff.mpr fun part _ => by cases part <;> rfl).symm
  | user =>
      refine (held "user" (buildUserBlocks m)).trans ?_
      unfold buildUserBlocks
      rw [List.filter_filterMap]
      refine List.filterMap_congr fun part _ => ?_
      cases part <;> rfl
  | assistant =>
      refine (held "assistant" (buildAssistantBlocks m)).trans ?_
      unfold buildAssistantBlocks
      rw [List.filter_filterMap]
      refine List.filterMap_congr fun part _ => ?_
      cases part with
      | toolCall call =>
          show Option.filter isToolBlock (callBlock call) = callBlock call
          unfold callBlock
          cases toolInput call.inputJson <;> rfl
      | _ => rfl

end Anthropic

namespace Gemini

def isToolBlock (b : JVal) : Bool :=
  (getObj b "functionCall").isSome || (getObj b "functionResponse").isSome

/-- The blocks of a wire message of this family. -/
def blocksIn (m : JVal) : List JVal := ((getArr m "parts").getD []).filter isToolBlock

/-- A message adds its blocks to those on the wire, and its names to those that are known. -/
theorem blocksIn_wireMessage (st : State) (acc : List JVal × CallNames) (m : Message) :
    ((wireMessage acc m).1.flatMap blocksIn =
        acc.1.flatMap blocksIn ++ m.parts.filterMap (toolBlock (.gemini st) acc.2 m.role)) ∧
      (wireMessage acc m).2 = namesAfter acc.2 m := by
  have held (role : String) (names : CallNames) (parts : List JVal) :
      (if parts.isEmpty then (acc.1, names)
        else (acc.1 ++ [jsonObject [("role", jsonStr role), ("parts", .array parts)]],
          names)).1.flatMap blocksIn =
        acc.1.flatMap blocksIn ++ parts.filter isToolBlock := by
    cases parts with
    | nil => exact (List.append_nil _).symm
    | cons part rest =>
        show (acc.1 ++ [_]).flatMap blocksIn = _
        rw [List.flatMap_append]
        exact congrArg (_ ++ ·) (List.append_nil _)
  have none_ {role : Role} (other : ∀ part, toolBlock (.gemini st) acc.2 role part = none) :
      acc.1.flatMap blocksIn = acc.1.flatMap blocksIn ++
        m.parts.filterMap (toolBlock (.gemini st) acc.2 role) := by
    rw [List.filterMap_eq_nil_iff.mpr fun part _ => other part, List.append_nil]
  unfold wireMessage namesAfter
  cases role : m.role with
  | system => exact ⟨none_ fun part => by cases part <;> rfl, rfl⟩
  | tool => exact ⟨none_ fun part => by cases part <;> rfl, rfl⟩
  | user =>
      refine ⟨(held "user" acc.2 (buildUserParts m acc.2)).trans ?_, ?_⟩
      · unfold buildUserParts
        rw [List.filter_filterMap]
        refine congrArg (_ ++ ·) (List.filterMap_congr fun part _ => ?_)
        cases part with
        | toolResult result =>
            dsimp only
            show Option.filter isToolBlock _ = resultBlock acc.2 result
            unfold resultBlock
            cases acc.2.lookup result.callId <;> rfl
        | _ => rfl
      · dsimp only
        split <;> rfl
  | assistant =>
      refine ⟨(held "model" _ (buildModelParts m)).trans ?_, ?_⟩
      · unfold buildModelParts
        rw [List.filter_filterMap]
        refine congrArg (_ ++ ·) (List.filterMap_congr fun part _ => ?_)
        cases part with
        | toolCall call =>
            show Option.filter isToolBlock (callBlock call) = callBlock call
            unfold callBlock
            cases toolInput call.inputJson <;> rfl
        | _ => rfl
      · dsimp only
        split <;> rfl

end Gemini

/-! ## Whole histories -/

theorem wired_cons_snd (p : Adapter) (names : CallNames) (m : Message) (rest : List Message) :
    (wired p names (m :: rest)).map Prod.snd =
      m.parts.filterMap (toolBlock p names m.role) ++
        (wired p (namesAfter names m) rest).map Prod.snd := by
  rw [← wiredOf_snd, ← List.map_append]
  rfl

theorem OpenAi.blocksIn_wireMessages (st : OpenAi.State) (msgs : List Message) :
    ∀ names : CallNames, (msgs.flatMap wireMessage).flatMap blocksIn =
      (wired (.openAi st) names msgs).map Prod.snd := by
  induction msgs with
  | nil => exact fun _ => rfl
  | cons m rest inductionHypothesis =>
      intro names
      rw [List.flatMap_cons, List.flatMap_append, blocksIn_wireMessage st names,
        inductionHypothesis (namesAfter names m), wired_cons_snd]

theorem Anthropic.blocksIn_wireMessages (st : Anthropic.State) (msgs : List Message) :
    ∀ names : CallNames, (msgs.flatMap wireMessage).flatMap blocksIn =
      (wired (.anthropic st) names msgs).map Prod.snd := by
  induction msgs with
  | nil => exact fun _ => rfl
  | cons m rest inductionHypothesis =>
      intro names
      rw [List.flatMap_cons, List.flatMap_append, blocksIn_wireMessage st names,
        inductionHypothesis (namesAfter names m), wired_cons_snd]

theorem Gemini.blocksIn_wireMessages (st : Gemini.State) (msgs : List Message) :
    ∀ acc : List JVal × CallNames, (msgs.foldl wireMessage acc).1.flatMap blocksIn =
      acc.1.flatMap blocksIn ++ (wired (.gemini st) acc.2 msgs).map Prod.snd := by
  induction msgs with
  | nil => exact fun _ => (List.append_nil _).symm
  | cons m rest inductionHypothesis =>
      intro acc
      obtain ⟨blocks, names⟩ := blocksIn_wireMessage st acc m
      rw [List.foldl_cons, inductionHypothesis, blocks, names, wired_cons_snd, List.append_assoc]

/-- **The blocks of a built request** are those of the history. -/
theorem toolBlocks_built {p : Adapter} {msgs : List Message} {tools : List ToolSpec}
    {model : ModelSpec} {budget : Budget} {req : RequestBytes}
    (built : p.buildRequest msgs tools model budget = .ok req) :
    ∃ root, req.body = toJson root ∧ toolBlocks p root = (wired p [] msgs).map Prod.snd := by
  cases p with
  | openAi st =>
      have built : OpenAi.buildRequest st msgs tools model budget = .ok req := built
      unfold OpenAi.buildRequest at built
      cases split_ : splitUrl st.baseUrl with
      | error e =>
          rw [split_] at built
          cases built
      | ok url =>
          rw [split_] at built
          dsimp only at built
          cases built
          exact ⟨_, rfl, OpenAi.blocksIn_wireMessages st msgs []⟩
  | anthropic st =>
      have built : Anthropic.buildRequest st msgs tools model budget = .ok req := built
      unfold Anthropic.buildRequest at built
      cases split_ : splitUrl st.baseUrl with
      | error e =>
          rw [split_] at built
          cases built
      | ok url =>
          rw [split_] at built
          dsimp only at built
          cases built
          refine ⟨_, rfl, Eq.trans ?_ (Anthropic.blocksIn_wireMessages st msgs [])⟩
          split <;> rfl
  | gemini st =>
      have built : Gemini.buildRequest st msgs tools model budget = .ok req := built
      unfold Gemini.buildRequest at built
      cases split_ : splitUrl st.baseUrl with
      | error e =>
          rw [split_] at built
          cases built
      | ok url =>
          rw [split_] at built
          dsimp only at built
          cases built
          exact ⟨_, rfl, Gemini.blocksIn_wireMessages st msgs ([], [])⟩

end Opencodepp.Provider
