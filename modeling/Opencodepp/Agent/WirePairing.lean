import Mathlib.Data.List.Nodup
import Mathlib.Data.List.Pairwise
import Opencodepp.Agent.History
import Opencodepp.Provider.ToolBlocks

/-!
# Pairing on the wire

A history in which every result follows its call should stay so when it is written into a
request.  Calls and results are written by different functions, and a call is left out when it
does not stand in a message of the assistant, or when its arguments do not parse and the adapter
wants a value; the result stays.  `wire_keeps_pairing_iff` says that this is the only way to go
wrong.
-/

set_option autoImplicit false

namespace Opencodepp.Agent

open Opencodepp.Core
open Opencodepp.Library
open Opencodepp.Library.Pairing
open Opencodepp.Msg
open Opencodepp.Provider
open Opencodepp.Util

/-! ## Histories and wires -/

/-- The calls of a history, in order. -/
def callsOf (msgs : List Message) : List ToolCall := (partsOf msgs).filterMap Part.asToolCall

/-- Every result comes after the call with its id, and the ids are distinct. -/
structure Preceded (msgs : List Message) : Prop where
  distinct : ((callsOf msgs).map (·.id)).Nodup
  asked : ∀ before a after k, partsOf msgs = before ++ a :: after →
    toolProtocol.answers a = some k → Asked toolProtocol k before

/-- The wire has every call of the history once, and every result after its call. -/
structure KeepsPairing (msgs : List Message) (wire : List (Part × JVal)) : Prop where
  calls : ∀ call ∈ callsOf msgs, wire.countP (fun block => block.1 = .toolCall call) = 1
  results : ∀ before block after k, wire = before ++ block :: after →
    toolProtocol.answers block.1 = some k → Asked toolProtocol k (before.map Prod.fst)

/-- The adapter has a block for the call: chat completions take the arguments as they are, the
others as a value. -/
def Representable (p : Adapter) (call : ToolCall) : Prop :=
  match p with
  | .openAi _ => True
  | .anthropic _ | .gemini _ => (toolInput call.inputJson).isSome = true

/-- Every call stands in a message of the assistant, with arguments the adapter can represent. -/
def CallsCarried (p : Adapter) (msgs : List Message) : Prop :=
  ∀ m ∈ msgs, ∀ call, .toolCall call ∈ m.parts → m.role = .assistant ∧ Representable p call

/-! ## What is on the wire -/

section Wire

variable {p : Adapter} {names : CallNames} {msgs : List Message}

theorem toolBlock_call {role : Role} {call : ToolCall} :
    (toolBlock p names role (.toolCall call)).isSome = true ↔
      role = .assistant ∧ Representable p call := by
  unfold Representable
  cases role with
  | assistant =>
      cases p with
      | openAi st => exact ⟨fun _ => ⟨rfl, trivial⟩, fun _ => rfl⟩
      | anthropic st =>
          show (Option.map _ (toolInput call.inputJson)).isSome = true ↔ _
          rw [Option.isSome_map]
          exact (and_iff_right rfl).symm
      | gemini st =>
          show (Option.map _ (toolInput call.inputJson)).isSome = true ↔ _
          rw [Option.isSome_map]
          exact (and_iff_right rfl).symm
  | user => simp [toolBlock]
  | system => simp [toolBlock]
  | tool => simp [toolBlock]

/-- A result on the wire stands in a message of the user. -/
theorem role_of_result {role : Role} {part : Part} {block : JVal} {k : Bytes}
    (found : toolBlock p names role part = some block)
    (answers : toolProtocol.answers part = some k) : role = .user := by
  cases part with
  | toolResult result =>
      cases role with
      | user => rfl
      | _ => cases found
  | _ => cases answers

/-- A block on the wire is a part of some message. -/
theorem mem_wired {block : Part × JVal} : ∀ {names : CallNames}, block ∈ wired p names msgs →
    ∃ m ∈ msgs, ∃ names', block.1 ∈ m.parts ∧
      toolBlock p names' m.role block.1 = some block.2 := by
  induction msgs with
  | nil => exact fun none_ => absurd none_ List.not_mem_nil
  | cons m rest inductionHypothesis =>
      intro names member
      rcases List.mem_append.mp member with here | later
      · obtain ⟨part, inside, made⟩ := List.mem_filterMap.mp here
        obtain ⟨value, found, rfl⟩ := Option.map_eq_some_iff.mp made
        exact ⟨m, List.mem_cons_self, names, inside, found⟩
      · obtain ⟨other, among, rest_⟩ := inductionHypothesis later
        exact ⟨other, List.mem_cons_of_mem _ among, rest_⟩

/-- The place of a block in a message. -/
theorem wiredOf_split {m : Message} {before after : List (Part × JVal)} {block : Part × JVal}
    (split : wiredOf p names m = before ++ block :: after) :
    ∃ first second, m.parts = first ++ block.1 :: second ∧
      toolBlock p names m.role block.1 = some block.2 := by
  obtain ⟨front, back, parts, -, tail⟩ := List.filterMap_eq_append_iff.mp split
  obtain ⟨skipped, part, rest, shape, -, made, -⟩ := List.filterMap_eq_cons_iff.mp tail
  obtain ⟨value, found, rfl⟩ := Option.map_eq_some_iff.mp made
  exact ⟨front ++ skipped, rest, by rw [parts, shape, List.append_assoc], found⟩

/-- The place of a block on the wire, and of its part in the history. -/
theorem wired_split {after : List (Part × JVal)} {block : Part × JVal} :
    ∀ {names : CallNames} {before : List (Part × JVal)},
      wired p names msgs = before ++ block :: after →
      ∃ past m rest first second written names', msgs = past ++ m :: rest ∧
        m.parts = first ++ block.1 :: second ∧ before = wired p names past ++ written ∧
        toolBlock p names' m.role block.1 = some block.2 := by
  induction msgs with
  | nil => exact fun split => absurd split.symm (by simp [wired])
  | cons m rest inductionHypothesis =>
      intro names before split
      have split : wiredOf p names m ++ wired p (namesAfter names m) rest =
          before ++ block :: after := split
      have later {more : List (Part × JVal)}
          (split : wired p (namesAfter names m) rest = more ++ block :: after) :
          ∃ past m' rest' first second written names', m :: rest = past ++ m' :: rest' ∧
            m'.parts = first ++ block.1 :: second ∧
            wiredOf p names m ++ more = wired p names past ++ written ∧
            toolBlock p names' m'.role block.1 = some block.2 := by
        obtain ⟨past, m', rest', first, second, written, names', rfl, parts, rfl, found⟩ :=
          inductionHypothesis split
        exact ⟨m :: past, m', rest', first, second, written, names', rfl, parts,
          (List.append_assoc ..).symm, found⟩
      rcases List.append_eq_append_iff.mp split with ⟨more, rfl, tail⟩ | ⟨more, here, tail⟩
      · exact later tail
      · cases more with
        | nil =>
            have next : wired p (namesAfter names m) rest = [] ++ block :: after := tail.symm
            obtain ⟨past, m', rest', first, second, written, names', shape, parts, same, found⟩ :=
              later next
            rw [List.append_nil] at here same
            exact ⟨past, m', rest', first, second, written, names', shape, parts,
              here.symm.trans same, found⟩
        | cons other more =>
            obtain ⟨rfl, -⟩ := List.cons.inj tail
            obtain ⟨first, second, parts, found⟩ := wiredOf_split here
            exact ⟨[], m, rest, first, second, before, names, rfl, parts, rfl, found⟩

/-- With every call carried, the wire has the calls of the history in order. -/
theorem calls_wired : ∀ {names : CallNames}, CallsCarried p msgs →
    (wired p names msgs).filterMap (fun block => block.1.asToolCall) = callsOf msgs := by
  induction msgs with
  | nil => exact fun _ => rfl
  | cons m rest inductionHypothesis =>
      intro names carried
      have later : (wired p (namesAfter names m) rest).filterMap
          (fun block => block.1.asToolCall) = callsOf rest :=
        inductionHypothesis fun other among => carried other (List.mem_cons_of_mem _ among)
      have here : (wiredOf p names m).filterMap (fun block => block.1.asToolCall) =
          m.parts.filterMap Part.asToolCall := by
        unfold wiredOf
        rw [List.filterMap_filterMap]
        refine List.filterMap_congr fun part inside => ?_
        cases part with
        | toolCall call =>
            have made : (toolBlock p names m.role (.toolCall call)).isSome = true :=
              toolBlock_call.mpr (carried m List.mem_cons_self call inside)
            obtain ⟨block, found⟩ := Option.isSome_iff_exists.mp made
            rw [found]
            rfl
        | toolResult result => cases toolBlock p names m.role (.toolResult result) <;> rfl
        | text content => cases toolBlock p names m.role (.text content) <;> rfl
        | reasoning content => cases toolBlock p names m.role (.reasoning content) <;> rfl
        | imageUrl url => cases toolBlock p names m.role (.imageUrl url) <;> rfl
        | binary mime data => cases toolBlock p names m.role (.binary mime data) <;> rfl
        | finish reason => cases toolBlock p names m.role (.finish reason) <;> rfl
      show (wiredOf p names m ++ wired p (namesAfter names m) rest).filterMap _ = _
      rw [List.filterMap_append, here, later]
      unfold callsOf partsOf
      rw [List.flatMap_cons, List.filterMap_append]

theorem countP_call (call : ToolCall) (wire : List (Part × JVal)) :
    wire.countP (fun block => block.1 = .toolCall call) =
      (wire.filterMap fun block => block.1.asToolCall).count call := by
  induction wire with
  | nil => rfl
  | cons block rest inductionHypothesis =>
      rw [List.countP_cons, inductionHypothesis]
      obtain ⟨part, value⟩ := block
      cases part with
      | toolCall other =>
          show _ = (other :: rest.filterMap fun block => block.1.asToolCall).count call
          rw [List.count_cons]
          simp
      | _ =>
          show _ = (rest.filterMap fun block => block.1.asToolCall).count call
          simp

end Wire

/-! ## The pairing -/

section Pairs

variable {p : Adapter} {msgs : List Message}

/-- A call stands in one message only. -/
theorem Preceded.same_message (preceded : Preceded msgs) {m m' : Message} {call : ToolCall}
    (among : m ∈ msgs) (among' : m' ∈ msgs) (inside : .toolCall call ∈ m.parts)
    (inside' : .toolCall call ∈ m'.parts) : m = m' := by
  have once : (callsOf msgs).Nodup := preceded.distinct.of_map
  have split : callsOf msgs = msgs.flatMap fun m => m.parts.filterMap Part.asToolCall := by
    unfold callsOf partsOf
    rw [List.filterMap_flatMap]
  rw [split] at once
  by_contra other
  have symmetric : Std.Symm (Function.onFun List.Disjoint
      fun m : Message => m.parts.filterMap Part.asToolCall) := ⟨fun _ _ disjoint _ inSecond inFirst => disjoint inFirst inSecond⟩
  have apart := (List.nodup_flatMap.mp once).2.forall among among' other
  exact apart (List.mem_filterMap.mpr ⟨_, inside, rfl⟩) (List.mem_filterMap.mpr ⟨_, inside', rfl⟩)

theorem mem_callsOf {m : Message} {call : ToolCall} (among : m ∈ msgs)
    (inside : .toolCall call ∈ m.parts) : call ∈ callsOf msgs :=
  List.mem_filterMap.mpr ⟨_, List.mem_flatMap.mpr ⟨m, among, inside⟩, rfl⟩

/-- A wire that has every call has carried it. -/
theorem KeepsPairing.carried (preceded : Preceded msgs)
    (keeps : KeepsPairing msgs (wired p [] msgs)) : CallsCarried p msgs := by
  intro m among call inside
  have once := keeps.calls call (mem_callsOf among inside)
  obtain ⟨block, onWire, same⟩ :=
    List.countP_pos_iff.mp (once ▸ Nat.one_pos : 0 < (wired p [] msgs).countP _)
  have same : block.1 = .toolCall call := of_decide_eq_true same
  obtain ⟨m', among', names', inside', found⟩ := mem_wired onWire
  rw [same] at inside' found
  rw [preceded.same_message among among' inside inside']
  exact toolBlock_call.mp (Option.isSome_iff_exists.mpr ⟨_, found⟩)

/-- A history whose calls are carried keeps its pairing. -/
theorem CallsCarried.keeps (preceded : Preceded msgs) (carried : CallsCarried p msgs) :
    KeepsPairing msgs (wired p [] msgs) where
  calls call member := by
    rw [countP_call, calls_wired carried]
    exact List.count_eq_one_of_mem preceded.distinct.of_map member
  results before block after k split answers := by
    obtain ⟨past, m, rest, first, second, written, names', shape, parts, rfl, found⟩ :=
      wired_split split
    have user := role_of_result found answers
    have history : partsOf msgs = (partsOf past ++ first) ++ block.1 ::
        (second ++ partsOf rest) := by
      rw [shape]
      unfold partsOf
      rw [List.flatMap_append, List.flatMap_cons, parts]
      simp
    obtain ⟨asking, earlier, asks⟩ := preceded.asked _ _ _ k history answers
    have call : ∃ call, asking = .toolCall call := by
      cases asking with
      | toolCall call => exact ⟨call, rfl⟩
      | _ => cases asks
    obtain ⟨call, rfl⟩ := call
    have inPast : .toolCall call ∈ partsOf past := by
      rcases List.mem_append.mp earlier with old | sameMessage
      · exact old
      · -- a message of the user carries no call
        have here : .toolCall call ∈ m.parts := parts ▸ List.mem_append_left _ sameMessage
        have among : m ∈ msgs := shape ▸ List.mem_append_right _ List.mem_cons_self
        have assistant := (carried m among call here).1
        rw [user] at assistant
        cases assistant
    have carriedPast : CallsCarried p past := fun other among =>
      carried other (shape ▸ List.mem_append_left _ among)
    have onWire : call ∈ (wired p [] past).filterMap fun block => block.1.asToolCall := by
      rw [calls_wired carriedPast]
      exact List.mem_filterMap.mpr ⟨_, inPast, rfl⟩
    obtain ⟨written', member, same⟩ := List.mem_filterMap.mp onWire
    have isCall : written'.1 = .toolCall call := by
      obtain ⟨part, value⟩ := written'
      cases part <;> cases same
      rfl
    refine ⟨.toolCall call, List.mem_map.mpr ⟨written', ?_, isCall⟩, asks⟩
    exact List.mem_append_left _ member

/-- **When the pairing is kept on the wire.**  The body of a request holds the blocks of the
history; every call is among them once and every result comes after its call exactly when every
call stands in a message of the assistant and can be represented. -/
theorem wire_keeps_pairing_iff (preceded : Preceded msgs) {tools : List ToolSpec}
    {model : ModelSpec} {budget : Budget} {req : RequestBytes}
    (built : p.buildRequest msgs tools model budget = .ok req) :
    ∃ root, req.body = toJson root ∧ toolBlocks p root = (wired p [] msgs).map Prod.snd ∧
      (KeepsPairing msgs (wired p [] msgs) ↔ CallsCarried p msgs) := by
  obtain ⟨root, body, blocks⟩ := toolBlocks_built built
  exact ⟨root, body, blocks, fun keeps => keeps.carried preceded,
    fun carried => carried.keeps preceded⟩

end Pairs

/-! ## Arguments that do not parse -/

/-- A call whose arguments have stopped short, and its result. -/
def brokenCall (arguments : String) : List Message :=
  [⟨str "m1", str "s", .assistant, [], [.toolCall ⟨str "c", str "f", str arguments, true⟩], 0⟩,
    ⟨str "m2", str "s", .user, [], [.toolResult ⟨str "c", str "done", false⟩], 0⟩]

def plainAnthropic : Adapter := .anthropic (Anthropic.make (str "http://h:1") [] 0)

theorem preceded_brokenCall (arguments : String) : Preceded (brokenCall arguments) where
  distinct := List.nodup_singleton _
  asked := by
    have asks : toolProtocol.asks (.toolCall ⟨str "c", str "f", str arguments, true⟩) =
        some (str "c") := rfl
    have first := (pending_nil (p := toolProtocol)).ask asks
      (fun asked => by
        obtain ⟨_, none_, _⟩ := asked
        exact absurd none_ List.not_mem_nil)
    exact (first.answer (x := .toolResult ⟨str "c", str "done", false⟩) List.not_mem_nil rfl).asked

def plainModel : ModelSpec := ⟨str "anthropic", str "anthropic", str "m", str "http://h:1", 0, 0⟩

/-- The result is on the wire, and its call is not. -/
theorem wire_drops_broken_call :
    Preceded (brokenCall "\x7b") ∧
    (plainAnthropic.buildRequest (brokenCall "\x7b") [] plainModel ⟨0, 0, 0⟩).isOk = true ∧
    ((wired plainAnthropic [] (brokenCall "\x7b")).map fun block =>
      toolProtocol.answers block.1) = [some (str "c")] ∧
    ¬KeepsPairing (brokenCall "\x7b") (wired plainAnthropic [] (brokenCall "\x7b")) := by
  refine ⟨preceded_brokenCall _, by decide +kernel, by decide +kernel, fun keeps => ?_⟩
  have none_ : (wired plainAnthropic [] (brokenCall "\x7b")).countP
      (fun block => block.1 = .toolCall ⟨str "c", str "f", str "\x7b", true⟩) = 0 := by
    decide +kernel
  have once := keeps.calls ⟨str "c", str "f", str "\x7b", true⟩ (by decide +kernel)
  rw [none_] at once
  cases once

theorem wire_keeps_pairing_whole :
    ∃ req root, plainAnthropic.buildRequest (brokenCall "\x7b\x7d") [] plainModel ⟨0, 0, 0⟩ = .ok req ∧
      req.body = toJson root ∧
      toolBlocks plainAnthropic root =
        (wired plainAnthropic [] (brokenCall "\x7b\x7d")).map Prod.snd ∧
      KeepsPairing (brokenCall "\x7b\x7d") (wired plainAnthropic [] (brokenCall "\x7b\x7d")) := by
  have isOk : (plainAnthropic.buildRequest (brokenCall "\x7b\x7d") [] plainModel
      ⟨0, 0, 0⟩).isOk = true := by decide +kernel
  cases built : plainAnthropic.buildRequest (brokenCall "\x7b\x7d") [] plainModel ⟨0, 0, 0⟩ with
  | error e =>
      rw [built] at isOk
      cases isOk
  | ok req =>
      obtain ⟨root, body, blocks, kept⟩ :=
        wire_keeps_pairing_iff (preceded_brokenCall "\x7b\x7d") built
      refine ⟨req, root, rfl, body, blocks, kept.mpr fun m among call inside => ?_⟩
      rcases List.mem_cons.mp among with rfl | among
      · cases List.mem_singleton.mp inside
        have parses : (toolInput (str "\x7b\x7d")).isSome = true := by decide +kernel
        exact ⟨rfl, parses⟩
      · rw [List.mem_singleton.mp among] at inside
        cases List.mem_singleton.mp inside

end Opencodepp.Agent
