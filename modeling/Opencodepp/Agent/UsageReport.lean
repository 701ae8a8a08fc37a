import Mathlib.Data.List.Forall2
import Mathlib.Data.List.Induction
import Mathlib.Data.UInt
import Opencodepp.Agent.Bookkeeping
import Opencodepp.Agent.Replay
import Opencodepp.Agent.Scripted
import Opencodepp.Provider.OpenAiStream

/-!
# The usage a session counts

A stream of chunks may report its usage in any chunk, and servers that are asked for it do so
after the finish reason.  The adapter reports what has been counted when the finish reason
arrives, so a round counts the last usage of its stream exactly when that is counted by then
(`usage_reported_iff`).
-/

set_option autoImplicit false

namespace Opencodepp.Provider.OpenAi

open Opencodepp.Util

/-- The usage objects of chunks. -/
def usages (ds : List JVal) : List JVal := ds.filterMap (getObj · "usage")

/-- What the last chunk with a usage object reports; no tokens when there is none. -/
def lastUsage (ds : List JVal) : Usage := ((usages ds).getLast?.map parseUsage).getD .zero

/-- The cached tokens of the last usage object that goes into details. -/
def lastCached (ds : List JVal) : UInt64 :=
  (((usages ds).filterMap (getObj · "prompt_tokens_details")).getLast?.map
    (getNum · "cached_tokens")).getD 0

/-- What is counted agrees with the last usage of the stream. -/
structure CountsLast (ds : List JVal) : Prop where
  input : (lastUsage (counted ds)).inputTokens = (lastUsage ds).inputTokens
  output : (lastUsage (counted ds)).outputTokens = (lastUsage ds).outputTokens
  cached : lastCached (counted ds) = (lastUsage ds).cachedInputTokens

instance (ds : List JVal) : Decidable (CountsLast ds) :=
  decidable_of_iff ((lastUsage (counted ds)).inputTokens = (lastUsage ds).inputTokens ∧
      (lastUsage (counted ds)).outputTokens = (lastUsage ds).outputTokens ∧
      lastCached (counted ds) = (lastUsage ds).cachedInputTokens)
    ⟨fun h => ⟨h.1, h.2.1, h.2.2⟩, fun h => ⟨h.input, h.output, h.cached⟩⟩

/-- Usage objects replace the counts, but keep the cached tokens they do not mention. -/
theorem totalUsage_zero (ds : List JVal) : totalUsage .zero ds =
    ⟨(lastUsage ds).inputTokens, (lastUsage ds).outputTokens, lastCached ds⟩ := by
  unfold totalUsage lastUsage lastCached usages
  induction ds.filterMap (getObj · "usage") using List.reverseRecOn with
  | nil => rfl
  | append_singleton us u inductionHypothesis =>
      rw [List.foldl_append, inductionHypothesis, List.getLast?_concat, List.filterMap_append]
      unfold accumulateUsage parseUsage
      cases detailed : getObj u "prompt_tokens_details" with
      | none => simp [detailed]
      | some det => simp [detailed]

/-- What a new stream of chunks counts. -/
theorem countsLast_iff (ds : List JVal) :
    totalUsage .zero (counted ds) = lastUsage ds ↔ CountsLast ds := by
  rw [totalUsage_zero]
  constructor
  · intro same
    exact ⟨(congrArg Usage.inputTokens same :), (congrArg Usage.outputTokens same :),
      (congrArg Usage.cachedInputTokens same :)⟩
  · intro counts
    rw [counts.input, counts.output, counts.cached]

end Opencodepp.Provider.OpenAi

namespace Opencodepp.Agent

open Opencodepp.Core
open Opencodepp.Library
open Opencodepp.Msg
open Opencodepp.Provider
open Opencodepp.Provider.OpenAi
open Opencodepp.Util

variable (env : Env)

/-- A round counts the usage up to the finish reason. -/
theorem usage_replay {st : OpenAi.State} (fresh : st.stream = .reset) (frames : List StreamFrame) :
    (replay (.openAi st, .blank) frames).2.usage =
      totalUsage .zero (counted (chunksOf frames)) := by
  have decides : decided (Machine.feed parseFrame .reset frames).2 =
      verdict .reset (chunksOf frames) := decided_feed frames rfl rfl
  have endings : endingsIn (heard (.openAi st) frames) = (verdict .reset (chunksOf frames)).2 := by
    rw [heard_openAi, fresh]
    exact congrArg Prod.snd decides
  rw [replay_heard, usage_sink, endings]
  unfold verdict counted
  cases untilFinish (chunksOf frames) <;> rfl

theorem stream_of_maker {s : Sys factory} {st : OpenAi.State}
    (maker : makerOf env s = .ok (.openAi st)) : st.stream = .reset := by
  unfold makerOf at maker
  cases bound : boundProvider env s with
  | error e =>
      rw [bound] at maker
      cases maker
  | ok p =>
      rw [bound] at maker
      cases p <;> cases maker
      rfl

/-- The tokens of a usage. -/
def tokensOf (usage : Usage) : UInt64 := usage.inputTokens + usage.outputTokens

theorem accountTokens_eq (used : UInt64) (usage : Usage) :
    accountTokens used usage = used + tokensOf usage := by
  unfold accountTokens tokensOf
  split
  · rfl
  · next none_ =>
      have zero : usage.inputTokens = 0 ∧ usage.outputTokens = 0 := by simpa using none_
      rw [zero.1, zero.2]
      simp

theorem spent_eq (rounds : List Round) : ∀ used : UInt64,
    spent used rounds = used + (rounds.map fun round => tokensOf round.acc.usage).sum := by
  induction rounds with
  | nil =>
      intro used
      simp [spent]
  | cons round rest inductionHypothesis =>
      intro used
      have later := inductionHypothesis (accountTokens used round.acc.usage)
      unfold spent at later ⊢
      rw [List.foldl_cons, later, accountTokens_eq, List.map_cons, List.sum_cons]
      exact UInt64.add_assoc ..

/-- A round returns the last usage of its stream exactly when that is counted. -/
def Counts (round : Round) (frames : List StreamFrame) : Prop :=
  round.acc.usage = lastUsage (chunksOf frames) ↔ CountsLast (chunksOf frames)

/-- Rounds that count the last usage of their streams use the tokens that are reported. -/
theorem reported_sum {rounds : List Round} {streams : List (List StreamFrame)}
    (each : List.Forall₂ Counts rounds streams)
    (all : ∀ frames ∈ streams, CountsLast (chunksOf frames)) :
    (rounds.map fun round => tokensOf round.acc.usage).sum =
      (streams.map fun frames => tokensOf (lastUsage (chunksOf frames))).sum := by
  induction each with
  | nil => rfl
  | @cons round frames rounds streams first _ inductionHypothesis =>
      have here : round.acc.usage = lastUsage (chunksOf frames) :=
        first.mpr (all frames List.mem_cons_self)
      have later := inductionHypothesis fun other member => all other (List.mem_cons_of_mem _ member)
      rw [List.map_cons, List.map_cons, List.sum_cons, List.sum_cons, here, later]

/-- The rounds of a session, with the stream of every round. -/
theorem Balanced.streamed {disk : Disk} {rounds : List Round} {s : Sys factory} {p : Adapter}
    (balanced : Balanced env disk rounds s) (maker : makerOf env (.fresh factory disk) = .ok p) :
    ∃ streams : List (List StreamFrame), List.Forall₂ (Streamed env p) rounds streams := by
  have every : ∀ round ∈ rounds, ∃ frames, Streamed env p round frames := by
    intro round member
    obtain ⟨q, frames, made, streamed⟩ := balanced.streams round member
    rw [maker] at made
    cases made
    exact ⟨frames, streamed⟩
  clear balanced
  induction rounds with
  | nil => exact ⟨[], .nil⟩
  | cons round rest inductionHypothesis =>
      obtain ⟨frames, streamed⟩ := every round List.mem_cons_self
      obtain ⟨streams, others⟩ := inductionHypothesis fun other member =>
        every other (List.mem_cons_of_mem _ member)
      exact ⟨frames :: streams, .cons streamed others⟩

/-- **A round counts the last usage of its stream exactly when that is counted by the finish
reason.**  The tokens a session has used, after any drives, are the sum of the usages its streams
report last, when each of these is counted. -/
theorem usage_reported_iff {disk : Disk} {calls : List (Call factory)} {s : Sys factory}
    {st : OpenAi.State} (run : Calls env disk calls s)
    (maker : makerOf env (.fresh factory disk) = .ok (.openAi st)) (fuel : Nat) (input : Bytes) :
    (∀ frames, (replay (.openAi st, .blank) frames).2.usage = lastUsage (chunksOf frames) ↔
      CountsLast (chunksOf frames)) ∧
    ∃ streams, List.Forall₂ (Streamed env (.openAi st))
        (roundsOf calls ++ roundsSince s (drive env fuel input s).2) streams ∧
      List.Forall₂ Counts (roundsOf calls ++ roundsSince s (drive env fuel input s).2) streams ∧
      ((∀ frames ∈ streams, CountsLast (chunksOf frames)) →
        (drive env fuel input s).2.session.tokensUsed =
          (streams.map fun frames => tokensOf (lastUsage (chunksOf frames))).sum) := by
  have fresh := stream_of_maker env maker
  have counts : ∀ frames, (replay (.openAi st, .blank) frames).2.usage =
      lastUsage (chunksOf frames) ↔ CountsLast (chunksOf frames) := by
    intro frames
    rw [usage_replay fresh]
    exact countsLast_iff _
  have balanced := run.balanced.drive fuel input
  obtain ⟨streams, streamed⟩ := balanced.streamed env maker
  have each := streamed.imp (S := Counts) fun round frames streamed => by
    unfold Counts
    rw [streamed.acc]
    exact counts frames
  refine ⟨counts, streams, streamed, each, fun all => ?_⟩
  rw [balanced.tokensUsed, spent_eq, reported_sum each all, UInt64.zero_add]

/-! ## A late usage object -/

/-- The end of a message without its usage. -/
def finishFrame : StreamFrame :=
  chunkFrame [(str "delta", .object []), (str "finish_reason", .string (str "stop"))] []

/-- A chunk without choices, after the finish reason, with the tokens of the message. -/
def usageFrame : StreamFrame :=
  ⟨[], toJson (.object [(str "choices", .array []), (str "usage", .object [
    (str "prompt_tokens", .number 3), (str "completion_tokens", .number 4)])])⟩

/-- A reply whose usage comes last, as it does on request. -/
def lateUsage : List StreamFrame := [textFrame "hi", finishFrame, usageFrame]

/-- Seven tokens are reported, and none are counted. -/
theorem late_usage_unreported :
    (∀ frame ∈ lateUsage, (chunkOf frame).isSome = true) ∧
    lastUsage (chunksOf lateUsage) = ⟨3, 4, 0⟩ ∧
    ¬((replay (.openAi (OpenAi.make [] [] 0 []), .blank) lateUsage).2.usage =
      lastUsage (chunksOf lateUsage)) ∧
    (drive (scriptedEnv .empty [connection lateUsage (.ok ())] []) 3 (str "explain x")
      scriptedStart).2.session.tokensUsed = 0 := by
  decide +kernel

/-- The adapter of a new session. -/
theorem makerOf_fresh {disk : Disk} {p : Adapter} (named : env.session.providerId ≠ [])
    (made : makeProvider ⟨env.session.providerId, env.session.apiKey, env.session.model.baseUrl,
      [], env.session.model.defaultMaxTokens⟩ = .ok p) :
    makerOf env (.fresh factory disk) = .ok p.resetStream := by
  unfold makerOf boundProvider
  show Except.map _ (if env.session.providerId = [] then _ else makeProvider _) = _
  rw [if_neg named, made]
  rfl

/-- The usage in the finishing chunk is counted. -/
theorem usage_reported_iff_hello :
    ∃ streams, List.Forall₂
        (Streamed (scriptedEnv .empty [textReply "hi"] [])
          (.openAi (OpenAi.make (str "http://h:1") (str "k") 0 [])))
        (roundsSince scriptedStart (drive (scriptedEnv .empty [textReply "hi"] []) 3
          (str "explain x") scriptedStart).2) streams ∧
      (drive (scriptedEnv .empty [textReply "hi"] []) 3 (str "explain x")
        scriptedStart).2.session.tokensUsed =
          (streams.map fun frames => tokensOf (lastUsage (chunksOf frames))).sum := by
  have run : Calls (scriptedEnv .empty [textReply "hi"] []) scriptedDisk [] scriptedStart := .fresh
  have made : makeProvider ⟨str "openai_compat", str "k", str "http://h:1", [], 0⟩ =
      .ok (.openAi (OpenAi.make (str "http://h:1") (str "k") 0 [])) := by decide
  have none_ : roundsOf ([] : List (Call factory)) = [] := rfl
  obtain ⟨-, streams, streamed, -, sum⟩ :=
    usage_reported_iff (scriptedEnv .empty [textReply "hi"] []) run
      (makerOf_fresh (scriptedEnv .empty [textReply "hi"] []) (by decide) made) 3 (str "explain x")
  rw [none_, List.nil_append] at streamed
  refine ⟨streams, streamed, sum ?_⟩
  have single : (roundsSince scriptedStart (drive (scriptedEnv .empty [textReply "hi"] []) 3
      (str "explain x") scriptedStart).2).map (·.attempts) = [[0]] := by decide +kernel
  obtain ⟨round, rounds, attempts⟩ := List.map_eq_singleton_iff.mp single
  rw [rounds] at streamed
  cases streamed with
  | cons first others =>
      cases others
      rw [List.forall_mem_singleton]
      rcases first.of_single _ attempts with rfl | rfl <;> decide +kernel

end Opencodepp.Agent
