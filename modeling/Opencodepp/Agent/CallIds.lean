import Mathlib.Data.List.Flatten
import Mathlib.Data.List.Infix
import Opencodepp.Agent.Replay
import Opencodepp.Agent.UsageReport
import Opencodepp.Agent.WirePairing
import Opencodepp.Provider.GeminiStream

/-!
# The ids of function calls

The third adapter makes up the ids of the calls, and starts over with every request; a request
names the call a result belongs to by looking its id up in the whole history, where the first
call under the id stands.  The ids of a session are distinct, and the names right, exactly when
at most one reply of the session calls functions at all (`callIds_distinct_iff`).
-/

set_option autoImplicit false

namespace Opencodepp.Provider.Gemini

open Opencodepp.Core
open Opencodepp.Library

/-! ## Ids of one stream -/

theorem callId_injective {m n : UInt32} (same : callId m = callId n) : m = n := by
  have digits : decimal m.toNat = decimal n.toNat := List.append_cancel_left same
  exact UInt32.toNat_inj.mp (decimal_injective digits)

theorem ids_numbered (calls : List (Bytes × Bytes)) : ∀ seq : UInt32,
    (numbered seq calls).map (·.id) =
      (List.range calls.length).map fun k => callId (seq + UInt32.ofNat k) := by
  induction calls with
  | nil => exact fun _ => rfl
  | cons call rest inductionHypothesis =>
      intro seq
      rw [List.length_cons, List.range_succ_eq_map, List.map_cons, List.map_map]
      have start : seq + UInt32.ofNat 0 = seq := by simp
      show callId seq :: (numbered (seq + 1) rest).map (·.id) = _
      rw [inductionHypothesis, start]
      refine congrArg (callId seq :: ·) (List.map_congr_left fun k _ => ?_)
      show callId (seq + 1 + UInt32.ofNat k) = callId (seq + UInt32.ofNat (k + 1))
      rw [UInt32.ofNat_add, UInt32.add_assoc, UInt32.add_comm 1]
      rfl

/-- The numbers of one stream are distinct as long as the counter does not come round. -/
theorem ids_nodup_iff (calls : List (Bytes × Bytes)) :
    ((numbered 0 calls).map (·.id)).Nodup ↔ calls.length ≤ 2 ^ 32 := by
  rw [ids_numbered]
  constructor
  · intro distinct
    by_contra more
    have apart := List.nodup_iff_injective_getElem.mp distinct
    have same := @apart ⟨0, by simp; omega⟩ ⟨2 ^ 32, by simp; omega⟩ (by simp)
    simp at same
  · intro few
    refine List.Nodup.map_on (fun k inside k' inside' same => ?_) List.nodup_range
    have equal := callId_injective same
    rw [UInt32.zero_add, UInt32.zero_add] at equal
    have values := congrArg UInt32.toNat equal
    rw [UInt32.toNat_ofNat', UInt32.toNat_ofNat'] at values
    have small := List.mem_range.mp inside
    have small' := List.mem_range.mp inside'
    omega

end Opencodepp.Provider.Gemini

namespace Opencodepp.Library

/-- Lists that all hold one element unless they are empty have no duplicates together exactly
when at most one of them is not empty. -/
theorem nodup_flatten_iff {κ : Type} [DecidableEq κ] {z : κ} {lists : List (List κ)}
    (common : ∀ l ∈ lists, l ≠ [] → z ∈ l) :
    lists.flatten.Nodup ↔
      (lists.filter (· ≠ [])).length ≤ 1 ∧ ∀ l ∈ lists, l.Nodup := by
  induction lists with
  | nil => simp
  | cons l rest inductionHypothesis =>
      have later := inductionHypothesis fun other among =>
        common other (List.mem_cons_of_mem _ among)
      rw [List.flatten_cons, List.filter_cons, List.forall_mem_cons]
      by_cases empty : l = []
      · rw [if_neg (by simpa using empty), empty, List.nil_append, later]
        simp
      · have held := common l List.mem_cons_self empty
        rw [if_pos (by simpa using empty), List.nodup_append, later, List.length_cons]
        constructor
        · rintro ⟨distinct, ⟨-, all⟩, apart⟩
          have none_ : rest.filter (· ≠ []) = [] := by
            refine List.filter_eq_nil_iff.mpr fun other among => ?_
            by_contra nonempty
            have nonempty : other ≠ [] := of_decide_eq_true (by simpa using nonempty)
            exact apart z held z (List.mem_flatten.mpr
              ⟨other, among, common other (List.mem_cons_of_mem _ among) nonempty⟩) rfl
          rw [none_]
          exact ⟨Nat.le_refl 1, distinct, all⟩
        · rintro ⟨one, distinct, all⟩
          have none_ : (rest.filter (· ≠ [])).length = 0 := by omega
          refine ⟨distinct, ⟨by omega, all⟩, fun a inside b inside' _ => ?_⟩
          obtain ⟨other, among, holds⟩ := List.mem_flatten.mp inside'
          have gone := List.filter_eq_nil_iff.mp (List.length_eq_zero_iff.mp none_) other among
          have nothing : other = [] := by simpa using gone
          rw [nothing] at holds
          exact absurd holds List.not_mem_nil

/-- In a list with distinct keys every pair is found. -/
theorem lookup_of_mem {κ ν : Type} [BEq κ] [LawfulBEq κ] {k : κ} {v : ν} {entries : List (κ × ν)}
    (distinct : (entries.map Prod.fst).Nodup) (member : (k, v) ∈ entries) :
    entries.lookup k = some v := by
  induction entries with
  | nil => exact absurd member List.not_mem_nil
  | cons entry rest inductionHypothesis =>
      obtain ⟨absent, others⟩ := List.nodup_cons.mp distinct
      rcases List.mem_cons.mp member with here | later
      · rw [← here]
        exact List.lookup_cons_self
      · have other : (k == entry.1) = false := by
          refine beq_eq_false_iff_ne.mpr fun same => absent ?_
          rw [← same]
          exact List.mem_map_of_mem later
        rw [List.lookup_cons, other]
        exact inductionHypothesis others later

end Opencodepp.Library

namespace Opencodepp.Agent

open Opencodepp.Core
open Opencodepp.Library
open Opencodepp.Msg
open Opencodepp.Provider
open Opencodepp.Util

variable (env : Env)

/-! ## The calls of a history -/

/-- A finished call as a part of the history. -/
def callPart (call : ToolCallDone) : ToolCall := ⟨call.id, call.name, call.inputJson, true⟩

theorem callsOf_append (first second : List Message) :
    callsOf (first ++ second) = callsOf first ++ callsOf second := by
  unfold callsOf partsOf
  rw [List.flatMap_append, List.filterMap_append]

/-- The user calls nothing. -/
theorem callsOf_users {ids : List Bytes} {msgs : List Message}
    (users : ∀ m ∈ msgs, UserMessage ids m) : callsOf msgs = [] := by
  refine List.filterMap_eq_nil_iff.mpr fun part member => ?_
  obtain ⟨m, among, inside⟩ := List.mem_flatMap.mp member
  rcases (users m among).parts part inside with ⟨text, rfl⟩ | ⟨result, rfl, -⟩ <;> rfl

theorem calls_assistantParts (text : Bytes) (calls : List ToolCallDone) (finish : FinishReason) :
    (assistantParts text calls finish).filterMap Part.asToolCall = calls.map callPart := by
  have none_ (part : Part) (other : part.asToolCall = none) (c : Prop) [Decidable c] :
      (if c then [] else [part]).filterMap Part.asToolCall = [] := by
    split
    · rfl
    · rw [List.filterMap_cons_none other]
      rfl
  unfold assistantParts
  rw [List.filterMap_append, List.filterMap_append, none_ _ rfl, none_ _ rfl, List.nil_append,
    List.append_nil, List.filterMap_map]
  exact List.filterMap_eq_map.symm ▸ rfl

/-- The calls of a history are those of its rounds. -/
theorem Transcript.calls {rounds : List Round} {msgs : List Message}
    (transcript : Transcript rounds msgs) :
    callsOf msgs = (rounds.flatMap (·.acc.calls)).map callPart := by
  induction transcript with
  | start users => exact callsOf_users users
  | @reply rounds round msgs answers said _ role parts users inductionHypothesis =>
      have reply : callsOf (said :: answers) = round.acc.calls.map callPart := by
        rw [show said :: answers = [said] ++ answers from rfl, callsOf_append,
          callsOf_users users, List.append_nil]
        unfold callsOf partsOf
        rw [List.flatMap_singleton, parts, calls_assistantParts]
      rw [callsOf_append, inductionHypothesis, reply, List.flatMap_append, List.map_append,
        List.flatMap_singleton]

/-- The calls of a round are the numbered ones of its stream. -/
theorem Streamed.numbered {st : Gemini.State} (fresh : st.stream = .reset) {round : Round}
    {frames : List StreamFrame} (streamed : Streamed env (.gemini st) round frames) :
    round.acc.calls = Gemini.numbered 0 (frames.flatMap Gemini.callsOf) := by
  have heard_ : heard (.gemini st) frames =
      (Machine.feed Gemini.parseFrame st.stream frames).2 := heard_gemini frames st
  rw [streamed.acc, replay_heard, calls_sink, heard_, fresh, Gemini.callsIn_feed]
  rfl

/-! ## Names -/

/-- The name a result is sent under. -/
def responseName (block : JVal) : Bytes :=
  ((getObj block "functionResponse").map (getStr · "name")).getD []

/-- The calls of the latest reply. -/
def latestCalls (msgs : List Message) : List ToolCall :=
  ((msgs.filter (·.role = .assistant)).getLast?.map Message.toolCalls).getD []

/-- Every result in a request is sent under the name of the call it answers, which stands in the
latest reply before it. -/
def NamesRight (st : Gemini.State) (msgs : List Message) : Prop :=
  ∀ past m rest, msgs = past ++ m :: rest → ∀ result block,
    (.toolResult result, block) ∈ wiredOf (.gemini st) (past.foldl namesAfter []) m →
    ∀ call ∈ latestCalls past, call.id = result.callId → responseName block = call.name

theorem names_of_past (past : List Message) : ∀ names : CallNames,
    past.foldl namesAfter names = names ++
      ((past.filter (·.role = .assistant)).flatMap Message.toolCalls).map
        fun call => (call.id, call.name) := by
  induction past with
  | nil => exact fun _ => (List.append_nil _).symm
  | cons m rest inductionHypothesis =>
      intro names
      rw [List.foldl_cons, inductionHypothesis, List.filter_cons]
      unfold namesAfter
      by_cases assistant : m.role = .assistant
      · rw [if_pos assistant, if_pos (by simpa using assistant), List.flatMap_cons,
          List.map_append, List.append_assoc]
      · rw [if_neg assistant, if_neg (by simpa using assistant)]

/-- With distinct ids the names are right. -/
theorem namesRight_of_distinct (st : Gemini.State) {msgs : List Message}
    (distinct : ((callsOf msgs).map (·.id)).Nodup) : NamesRight st msgs := by
  intro past m rest split result block onWire call among same
  obtain ⟨part, -, made⟩ := List.mem_filterMap.mp onWire
  obtain ⟨value, found, pair⟩ := Option.map_eq_some_iff.mp made
  obtain ⟨rfl, rfl⟩ := Prod.mk.inj pair
  have user : m.role = .user := role_of_result found rfl
  rw [user] at found
  have found : Gemini.resultBlock (past.foldl namesAfter []) result = some value := found
  -- the names are those of calls of the history, so their ids are distinct
  have names := names_of_past past []
  rw [List.nil_append] at names
  have sub : ((past.filter (·.role = .assistant)).flatMap Message.toolCalls).Sublist
      (callsOf msgs) := by
    have all : callsOf msgs = msgs.flatMap Message.toolCalls := by
      unfold callsOf partsOf Message.toolCalls
      rw [List.filterMap_flatMap]
    rw [all, split, List.flatMap_append]
    exact (List.filter_sublist.flatMap _).trans (List.sublist_append_left _ _)
  have keys : ((past.foldl namesAfter []).map Prod.fst).Nodup := by
    rw [names, List.map_map]
    exact (sub.map (·.id)).nodup distinct
  have latest : (call.id, call.name) ∈ past.foldl namesAfter [] := by
    unfold latestCalls at among
    cases last : (past.filter (·.role = .assistant)).getLast? with
    | none =>
        rw [last] at among
        exact absurd among List.not_mem_nil
    | some said =>
        rw [last] at among
        rw [names]
        exact List.mem_map.mpr ⟨call, List.mem_flatMap.mpr
          ⟨said, List.mem_of_getLast? last, among⟩, rfl⟩
  have name := lookup_of_mem keys latest
  rw [same] at name
  unfold Gemini.resultBlock at found
  rw [name] at found
  cases found
  rfl

/-! ## Sessions -/

/-- At most one of the streams calls functions, and its calls can be counted. -/
def FewCalls (streams : List (List StreamFrame)) : Prop :=
  (streams.filter fun frames => frames.flatMap Gemini.callsOf ≠ []).length ≤ 1 ∧
    ∀ frames ∈ streams, (frames.flatMap Gemini.callsOf).length ≤ 2 ^ 32

instance (streams : List (List StreamFrame)) : Decidable (FewCalls streams) :=
  inferInstanceAs (Decidable (_ ∧ _))

/-- The ids of streams that each start over are distinct exactly when few functions are called. -/
theorem ids_distinct_iff (streams : List (List StreamFrame)) :
    ((streams.flatMap fun frames => Gemini.numbered 0 (frames.flatMap Gemini.callsOf)).map
      (·.id)).Nodup ↔ FewCalls streams := by
  let ids (frames : List StreamFrame) : List Bytes :=
    (Gemini.numbered 0 (frames.flatMap Gemini.callsOf)).map (·.id)
  have nonempty (frames : List StreamFrame) :
      ids frames ≠ [] ↔ frames.flatMap Gemini.callsOf ≠ [] := by
    show (Gemini.numbered 0 _).map _ ≠ [] ↔ _
    cases frames.flatMap Gemini.callsOf with
    | nil => simp [Gemini.numbered]
    | cons call rest => simp [Gemini.numbered]
  have first : ∀ l ∈ streams.map ids, l ≠ [] → Gemini.callId 0 ∈ l := by
    intro l member some_
    obtain ⟨frames, -, rfl⟩ := List.mem_map.mp member
    have calls := (nonempty frames).mp some_
    show Gemini.callId 0 ∈ (Gemini.numbered 0 _).map _
    cases shape : frames.flatMap Gemini.callsOf with
    | nil => exact absurd shape calls
    | cons call rest => exact List.mem_cons_self
  have together := nodup_flatten_iff first
  rw [List.map_flatMap]
  show (streams.map ids).flatten.Nodup ↔ _
  rw [together, List.filter_map, List.length_map]
  unfold FewCalls
  have same : streams.filter ((fun l : List Bytes => decide (l ≠ [])) ∘ ids) =
      streams.filter fun frames => frames.flatMap Gemini.callsOf ≠ [] :=
    List.filter_congr fun frames _ => decide_eq_decide.mpr (nonempty frames)
  rw [same, List.forall_mem_map]
  exact and_congr Iff.rfl (forall₂_congr fun frames _ => Gemini.ids_nodup_iff _)

section Session

variable {env} {disk : Disk} {st : Gemini.State}

theorem stream_of_geminiMaker {s : Sys factory} (maker : makerOf env s = .ok (.gemini st)) :
    st.stream = .reset := by
  unfold makerOf at maker
  cases bound : boundProvider env s with
  | error e =>
      rw [bound] at maker
      cases maker
  | ok p =>
      rw [bound] at maker
      cases p <;> cases maker
      rfl

theorem calls_of_streams (fresh : st.stream = .reset) {rounds : List Round}
    {streams : List (List StreamFrame)}
    (streamed : List.Forall₂ (Streamed env (.gemini st)) rounds streams) :
    rounds.flatMap (·.acc.calls) =
      streams.flatMap fun frames => Gemini.numbered 0 (frames.flatMap Gemini.callsOf) := by
  induction streamed with
  | nil => rfl
  | cons first _ inductionHypothesis =>
      rw [List.flatMap_cons, List.flatMap_cons, first.numbered env fresh, inductionHypothesis]

/-- **When ids and names are right.**  After any drives of a session over the third adapter: the
calls of the history have distinct ids, and every request of the last drive sends every result
under the name of the call it answers, exactly when few of the streams call functions. -/
theorem callIds_distinct_iff {calls : List (Call factory)} {s : Sys factory}
    (run : Calls env disk calls s) (maker : makerOf env (.fresh factory disk) = .ok (.gemini st))
    (fuel : Nat) (input : Bytes) :
    ∃ streams, List.Forall₂ (Streamed env (.gemini st))
        (roundsOf calls ++ roundsSince s (drive env fuel input s).2) streams ∧
      ((((callsOf (drive env fuel input s).2.session.messages).map (·.id)).Nodup ∧
        ∀ m tools, .request m tools ∈ (drive env fuel input s).2.log → NamesRight st m) ↔
        FewCalls streams) := by
  have fresh := stream_of_geminiMaker maker
  have balanced := run.balanced.drive fuel input
  obtain ⟨streams, streamed⟩ := balanced.streamed env maker
  have history : ((callsOf (drive env fuel input s).2.session.messages).map (·.id)) =
      (streams.flatMap fun frames =>
        Gemini.numbered 0 (frames.flatMap Gemini.callsOf)).map (·.id) := by
    rw [balanced.history.calls, calls_of_streams fresh streamed, List.map_map]
    rfl
  refine ⟨streams, streamed, fun both => ?_, fun few => ?_⟩
  · have distinct := both.1
    rw [history] at distinct
    exact (ids_distinct_iff streams).mp distinct
  · have distinct := (ids_distinct_iff streams).mpr few
    rw [← history] at distinct
    refine ⟨distinct, fun m tools asked => namesRight_of_distinct st ?_⟩
    -- a request is made from the rounds so far
    obtain ⟨made, earlier, transcript⟩ := run.balanced.requests fuel input asked
    have sub := (earlier.flatMap (·.acc.calls)).sublist.map callPart
    rw [← transcript.calls, ← balanced.history.calls] at sub
    exact (sub.map (·.id)).nodup distinct

end Session

/-! ## Two functions -/

/-- A value of the third family. -/
def candidateFrame (members : List (String × JVal)) : StreamFrame :=
  ⟨[], toJson (jsonObject [("candidates", .array [jsonObject members])])⟩

/-- A reply that calls a function. -/
def functionReply (name : String) : Attempt :=
  connection [candidateFrame [("content", jsonObject [("parts", .array [jsonObject
    [("functionCall", jsonObject [("name", jsonStr name), ("args", jsonObject [])])]])]),
    ("finishReason", jsonStr "STOP")]] (.ok ())

/-- The scripted setting over the third adapter. -/
def geminiEnv (connections : List Attempt) : Env :=
  { scriptedEnv .empty connections [] with
    session := { scriptedSession with providerId := str "google" } }

def geminiState : Gemini.State := Gemini.make (str "http://h:1") (str "k") 0

/-- The last message of a request answers a call under another name. -/
def misnamed (msgs : List Message) : Bool :=
  (msgs.getLast?.map fun last =>
    (wiredOf (.gemini geminiState) (msgs.dropLast.foldl namesAfter []) last).any fun block =>
      block.1.asToolResult.any fun result =>
        (latestCalls msgs.dropLast).any fun call =>
          call.id = result.callId && responseName block.2 ≠ call.name).getD false

theorem not_namesRight_of_misnamed {msgs : List Message} (wrong : misnamed msgs = true) :
    ¬NamesRight geminiState msgs := by
  intro right
  unfold misnamed at wrong
  cases last : msgs.getLast? with
  | none =>
      rw [last] at wrong
      cases wrong
  | some m =>
      rw [last] at wrong
      have split : msgs = msgs.dropLast ++ m :: [] := (List.dropLast_append_getLast? m last).symm
      obtain ⟨⟨part, block⟩, onWire, answers⟩ := List.any_eq_true.mp wrong
      cases part with
      | toolResult result =>
          obtain ⟨call, among, other⟩ := List.any_eq_true.mp answers
          simp only [Bool.and_eq_true, decide_eq_true_eq] at other
          exact other.2 (right _ m [] split result block onWire call among other.1)
      | _ => cases answers

/-- Two replies call two functions, both under the first id, and the second result is sent under
the name of the first function. -/
theorem second_function_misnamed :
    ¬((callsOf (drive (geminiEnv [functionReply "f", functionReply "g"]) 5 (str "explain x")
        scriptedStart).2.session.messages).map (·.id)).Nodup ∧
    ∃ msgs tools, .request msgs tools ∈ (drive (geminiEnv [functionReply "f", functionReply "g"]) 5
      (str "explain x") scriptedStart).2.log ∧ ¬NamesRight geminiState msgs := by
  refine ⟨by decide +kernel, ?_⟩
  have found : (drive (geminiEnv [functionReply "f", functionReply "g"]) 5 (str "explain x")
      scriptedStart).2.log.any (requestWith misnamed) = true := by decide +kernel
  obtain ⟨later, msgs, tools, past, here, wrong⟩ := request_at found
  exact ⟨msgs, tools, here ▸ List.mem_append_right _ List.mem_cons_self,
    not_namesRight_of_misnamed wrong⟩

/-- One function is called, and its result is sent under its name. -/
theorem callIds_distinct_iff_one :
    ∃ streams, List.Forall₂
        (Streamed (geminiEnv [functionReply "f"]) (.gemini geminiState))
        (roundsSince scriptedStart (drive (geminiEnv [functionReply "f"]) 5 (str "explain x")
          scriptedStart).2) streams ∧
      ∀ m tools, .request m tools ∈ (drive (geminiEnv [functionReply "f"]) 5
        (str "explain x") scriptedStart).2.log → NamesRight geminiState m := by
  have run : Calls (geminiEnv [functionReply "f"]) scriptedDisk [] scriptedStart := .fresh
  have made : makeProvider ⟨str "google", str "k", str "http://h:1", [], 0⟩ =
      .ok (.gemini geminiState) := by decide
  have none_ : roundsOf ([] : List (Call factory)) = [] := rfl
  obtain ⟨streams, streamed, iff_⟩ := callIds_distinct_iff run
    (makerOf_fresh (geminiEnv [functionReply "f"]) (by decide) made) 5 (str "explain x")
  rw [none_, List.nil_append] at streamed
  refine ⟨streams, streamed, (iff_.mpr ?_).2⟩
  have single : (roundsSince scriptedStart (drive (geminiEnv [functionReply "f"]) 5
      (str "explain x") scriptedStart).2).map (·.attempts) = [[0], [1]] := by decide +kernel
  obtain ⟨first, others, rounds, attempts, later⟩ := List.map_eq_cons_iff.mp single
  obtain ⟨second, rfl, attempts'⟩ := List.map_eq_singleton_iff.mp later
  rw [rounds] at streamed
  cases streamed with
  | cons here behind =>
      cases behind with
      | cons there rest =>
          cases rest
          rcases here.of_single _ attempts with rfl | rfl <;>
            rcases there.of_single _ attempts' with rfl | rfl <;> decide +kernel

end Opencodepp.Agent
