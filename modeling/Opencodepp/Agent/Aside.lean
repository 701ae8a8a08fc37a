import Opencodepp.Agent.Frame
import Opencodepp.Agent.Loop

/-!
# What happens aside of the calls of the provider

Between two calls of the provider a drive assembles, reports, runs tools and answers calls.
None of this touches the provider or the tokens used, and it logs no attempt, no request and no
reply; the messages it appends are texts of the user and results of the calls it was given.
`Aside` states this once, and every part of a drive other than the call of the provider and
the taking over of its reply is within it.
-/

set_option autoImplicit false

namespace Opencodepp.Agent

open Opencodepp.Core
open Opencodepp.Library
open Opencodepp.Library.Program
open Opencodepp.Library.Trace
open Opencodepp.Msg
open Opencodepp.Provider

variable {P : Provider} {ε : Type} (env : Env)

/-! ## The relation -/

/-- Entries that are no attempt, no request and no reply. -/
def Apart : Ev → Prop
  | .attempt _ _ | .request _ _ | .reply _ _ => False
  | _ => True

/-- A message of the user: texts, and results of calls with these ids. -/
structure UserMessage (ids : List Bytes) (m : Message) : Prop where
  role : m.role = .user
  parts : ∀ part ∈ m.parts, (∃ text, part = .text text) ∨
    ∃ result, part = .toolResult result ∧ result.callId ∈ ids

theorem UserMessage.mono {ids more : List Bytes} {m : Message} (user : UserMessage ids m)
    (wider : ∀ id ∈ ids, id ∈ more) : UserMessage more m where
  role := user.role
  parts part member := by
    rcases user.parts part member with text | ⟨result, same, answered⟩
    · exact .inl text
    · exact .inr ⟨result, same, wider _ answered⟩

/-- Nothing but user messages was appended, and the calls of the provider were left alone. -/
structure Aside (ids : List Bytes) (s s' : Sys P) : Prop where
  provider : s'.session.provider = s.session.provider
  attempts : s'.count.attempts = s.count.attempts
  tokensUsed : s'.session.tokensUsed = s.session.tokensUsed
  messages : ∃ new, s'.session.messages = s.session.messages ++ new ∧ ∀ m ∈ new, UserMessage ids m
  log : Extends Apart s.log s'.log

theorem Aside.framing (ids : List Bytes) : Framing (Aside (P := P) ids) where
  refl s := ⟨rfl, rfl, rfl, ⟨[], (List.append_nil _).symm, fun _ none_ =>
    absurd none_ List.not_mem_nil⟩, .refl _ s.log⟩
  trans := by
    intro s s' s'' first second
    obtain ⟨early, split, allEarly⟩ := first.messages
    obtain ⟨late, split', allLate⟩ := second.messages
    refine ⟨second.provider.trans first.provider, second.attempts.trans first.attempts,
      second.tokensUsed.trans first.tokensUsed, ⟨early ++ late, ?_, ?_⟩,
      first.log.trans second.log⟩
    · rw [split', split, List.append_assoc]
    · intro m member
      rcases List.mem_append.mp member with inEarly | inLate
      · exact allEarly m inEarly
      · exact allLate m inLate

/-! ## Primitive steps -/

section Parts

variable (ids : List Bytes)

/-- A step that leaves the messages alone. -/
theorem aside_update {f : Sys P → Sys P} (provider : ∀ s, (f s).session.provider = s.session.provider)
    (attempts : ∀ s, (f s).count.attempts = s.count.attempts)
    (tokensUsed : ∀ s, (f s).session.tokensUsed = s.session.tokensUsed)
    (messages : ∀ s, (f s).session.messages = s.session.messages)
    (log : ∀ s, Extends Apart s.log (f s).log) :
    Within (Aside ids) (.update f : Program (Sys P) ε Unit) :=
  fun s => ⟨provider s, attempts s, tokensUsed s, ⟨[], (messages s).trans (List.append_nil _).symm,
    fun _ none_ => absurd none_ List.not_mem_nil⟩, log s⟩

/-- A step that changes only what the tools work with. -/
theorem aside_of_kept {α : Type} {x : Program (Sys P) ε α}
    (provider : ∀ s, (x s).2.session.provider = s.session.provider)
    (attempts : ∀ s, (x s).2.count.attempts = s.count.attempts)
    (tokensUsed : ∀ s, (x s).2.session.tokensUsed = s.session.tokensUsed)
    (messages : ∀ s, (x s).2.session.messages = s.session.messages)
    (log : ∀ s, Extends Apart s.log (x s).2.log) : Within (Aside ids) x :=
  fun s => ⟨provider s, attempts s, tokensUsed s, ⟨[], (messages s).trans (List.append_nil _).symm,
    fun _ none_ => absurd none_ List.not_mem_nil⟩, log s⟩

theorem aside_record {ev : Ev} (apart : Apart ev) :
    Within (Aside ids) (record ev : Program (Sys P) ε Unit) :=
  aside_update ids (fun _ => rfl) (fun _ => rfl) (fun _ => rfl) (fun _ => rfl)
    fun s => .single apart s.log

theorem aside_pollCancel (site : PollSite) :
    Within (Aside ids) (pollCancel env site : Program (Sys P) ε Bool) :=
  aside_of_kept ids (fun _ => rfl) (fun _ => rfl) (fun _ => rfl) (fun _ => rfl)
    fun s => .single trivial s.log

theorem aside_emit (phase : String) (detail : Bytes) (status : Nat) :
    Within (Aside ids) (emit env phase detail status : Program (Sys P) ε Unit) := by
  unfold emit
  intro s
  split
  · exact ⟨rfl, rfl, rfl, ⟨[], (List.append_nil _).symm, fun _ none_ =>
      absurd none_ List.not_mem_nil⟩, .single trivial s.log⟩
  · exact (Aside.framing ids).refl s

theorem aside_setState (target : AgentState) :
    Within (Aside ids) (setState target : Program (Sys P) ε Unit) :=
  aside_update ids (fun _ => rfl) (fun _ => rfl) (fun _ => rfl) (fun _ => rfl)
    fun s => .single trivial s.log

theorem aside_enter (target : AgentState) (phase : String) (detail : Bytes) (status : Nat) :
    Within (Aside ids) (enter env target phase detail status : Program (Sys P) ε Unit) :=
  .bind (Aside.framing ids) (aside_setState ids target) fun _ => aside_emit env ids phase detail status

theorem aside_checkpoint : Within (Aside ids) (checkpoint env : Program (Sys P) ε Unit) :=
  .onlyIf (Aside.framing ids) (aside_emit env ids _ _ _)

theorem aside_breakWith {α : Type} (e : Failure) :
    Within (Aside ids) (breakWith e : Program (Sys P) Unit α) :=
  .bind (Aside.framing ids)
    (aside_update ids (fun _ => rfl) (fun _ => rfl) (fun _ => rfl) (fun _ => rfl)
      fun s => .refl _ s.log)
    fun _ => .stop (Aside.framing ids) ()

/-- A message of the user. -/
theorem aside_appendUserParts {parts : List Part}
    (inert : ∀ part ∈ parts, (∃ text, part = .text text) ∨
      ∃ result, part = .toolResult result ∧ result.callId ∈ ids) :
    Within (Aside ids) (appendMessage env .user [] parts : Program (Sys P) ε Unit) := by
  intro s
  refine ⟨rfl, rfl, rfl, ⟨_, rfl, fun m member => ?_⟩, .refl _ s.log⟩
  rw [List.mem_singleton.mp member]
  exact ⟨rfl, inert⟩

theorem aside_appendUser (text : Bytes) :
    Within (Aside ids) (appendUser env text : Program (Sys P) ε Unit) := by
  refine aside_appendUserParts env ids fun part member => ?_
  rw [List.mem_singleton.mp member]
  exact .inl ⟨text, rfl⟩

theorem aside_appendToolResult {callId : Bytes} (known : callId ∈ ids) (content : Bytes)
    (isError : Bool) :
    Within (Aside ids) (appendToolResult env callId content isError : Program (Sys P) ε Unit) := by
  refine aside_appendUserParts env ids fun part member => ?_
  rw [List.mem_singleton.mp member]
  exact .inr ⟨_, rfl, known⟩

/-! ## Tools -/

theorem aside_permissionRun (reg : Tools.ToolRegistry) (gate : Tools.Gate)
    (inv : Tools.Invocation) :
    Within (Aside ids) (permissionRun reg gate inv : Program (Sys P) ε Tools.ToolResult) := by
  refine aside_of_kept ids (fun _ => rfl) (fun _ => rfl) (fun _ => rfl) (fun _ => rfl) fun s => ?_
  refine ⟨executions reg gate inv s ++ [.permission inv], by simp [permissionRun], ?_⟩
  intro e member
  rcases List.mem_append.mp member with executed | asked
  · unfold executions at executed
    split at executed
    · rw [List.mem_singleton.mp executed]
      trivial
    · exact absurd executed List.not_mem_nil
  · rw [List.mem_singleton.mp asked]
    trivial

theorem aside_writeRepoRule (name : Bytes) :
    Within (Aside ids) (writeRepoRule env name : Program (Sys P) ε Unit) :=
  .onlyIf (Aside.framing ids) (aside_record ids trivial)

theorem aside_applyWrite (reg : Tools.ToolRegistry) (gate : Tools.Gate) (call : ToolCallDone)
    (prop : Verify.EditProposal) :
    Within (Aside ids) (applyWrite env reg gate call prop : Program (Sys P) ε ToolOutcome) := by
  have framing := Aside.framing (P := P) ids
  refine .bind framing (aside_enter env ids _ _ _ _) fun _ => ?_
  refine .bind framing (aside_permissionRun ids reg gate _) fun r => ?_
  split
  · refine .bind framing ?_ fun _ => .pure framing _
    exact aside_update ids (fun _ => rfl) (fun _ => rfl) (fun _ => rfl) (fun _ => rfl)
      fun s => .refl _ s.log
  · exact .bind framing (.onlyIf framing (aside_writeRepoRule env ids _)) fun _ => .pure framing _
  · exact .pure framing _

theorem aside_runPlainTool (reg : Tools.ToolRegistry) (gate : Tools.Gate) (call : ToolCallDone) :
    Within (Aside ids) (runPlainTool env reg gate call : Program (Sys P) ε ToolOutcome) := by
  have framing := Aside.framing (P := P) ids
  refine .bind framing (aside_permissionRun ids reg gate _) fun r => ?_
  refine .ite (.pure framing _) (.ite ?_ (.pure framing _))
  exact .bind framing (aside_writeRepoRule env ids _) fun _ => .pure framing _

theorem aside_gateFeedback (fail : Verify.GateResult) :
    Within (Aside ids) (gateFeedback env fail : Program (Sys P) ε Bytes) := by
  have framing := Aside.framing (P := P) ids
  refine .bind framing (aside_emit env ids _ _ _) fun _ => ?_
  refine .bind framing (.gets framing _) fun seen => ?_
  refine .ite (.bind framing ?_ fun _ => .pure framing _) (.bind framing ?_ fun _ => .pure framing _)
  all_goals
    exact aside_update ids (fun _ => rfl) (fun _ => rfl) (fun _ => rfl) (fun _ => rfl)
      fun s => .refl _ s.log

theorem aside_runWriteTool (reg : Tools.ToolRegistry) (gate : Tools.Gate)
    (checkers : Verify.Checkers) (call : ToolCallDone) :
    Within (Aside ids) (runWriteTool env reg gate checkers call : Program (Sys P) ε ToolOutcome) := by
  have framing := Aside.framing (P := P) ids
  refine .bind framing (aside_enter env ids _ _ _ _) fun _ => ?_
  refine .bind framing ?_ fun proposed => ?_
  · exact aside_of_kept ids (fun _ => rfl) (fun _ => rfl) (fun _ => rfl) (fun _ => rfl)
      fun s => .refl _ s.log
  · split
    · exact .pure framing _
    · refine .bind framing ?_ fun results => ?_
      · exact aside_of_kept ids (fun _ => rfl) (fun _ => rfl) (fun _ => rfl) (fun _ => rfl)
          fun s => .single trivial s.log
      · split
        · exact .bind framing (aside_gateFeedback env ids _) fun _ => .pure framing _
        · exact aside_applyWrite env ids reg gate call _

theorem aside_runTool (call : ToolCallDone) :
    Within (Aside ids) (runTool env call : Program (Sys P) ε ToolOutcome) := by
  have framing := Aside.framing (P := P) ids
  refine .bind framing (aside_record ids trivial) fun _ => ?_
  split
  · split
    · exact .pure framing _
    · exact .ite (aside_runWriteTool env ids _ _ _ _) (aside_runPlainTool env ids _ _ _)
  · exact .pure framing _

theorem aside_answerCall {call : ToolCallDone} (known : call.id ∈ ids) (outcome : ToolOutcome) :
    Within (Aside ids) (answerCall env call outcome : Program (Sys P) ε Unit) := by
  refine .ite (.bind (Aside.framing ids) ?_ fun _ => ?_) ?_
  · exact aside_update ids (fun _ => rfl) (fun _ => rfl) (fun _ => rfl) (fun _ => rfl)
      fun s => .refl _ s.log
  · exact aside_appendToolResult env ids known _ _
  · exact aside_appendToolResult env ids known _ _

/-- The calls of a reply, by induction on them: their results carry their ids. -/
theorem aside_toolLoop : ∀ calls : List ToolCallDone, (∀ call ∈ calls, call.id ∈ ids) →
    Within (Aside ids) (toolLoop env calls : Program (Sys P) ε Unit) := by
  have framing := Aside.framing (P := P) ids
  intro calls
  induction calls with
  | nil => exact fun _ => .pure framing ()
  | cons call rest inductionHypothesis =>
      intro known
      obtain ⟨first, later⟩ := List.forall_mem_cons.mp known
      refine .bind framing (aside_pollCancel env ids _) fun seen => ?_
      refine .ite (aside_record ids trivial) ?_
      refine .bind framing (aside_runTool env ids call) fun outcome => ?_
      refine .bind framing (aside_answerCall env ids first outcome) fun _ => ?_
      refine .bind framing (.gets framing _) fun aborted => ?_
      refine .ite (.bind framing ?_ fun _ => aside_record ids trivial)
        (.ite (aside_record ids trivial) (inductionHypothesis later))
      exact aside_update ids (fun _ => rfl) (fun _ => rfl) (fun _ => rfl) (fun _ => rfl)
        fun s => .refl _ s.log

theorem aside_toolRound {calls : List ToolCallDone} (known : ∀ call ∈ calls, call.id ∈ ids) :
    Within (Aside ids) (toolRound env calls : Program (Sys P) Unit Unit) := by
  have framing := Aside.framing (P := P) ids
  refine .bind framing (aside_enter env ids _ _ _ _) fun _ => ?_
  refine .bind framing (aside_toolLoop env ids calls known) fun _ => ?_
  refine .bind framing (aside_checkpoint env ids) fun _ => ?_
  refine .bind framing (.gets framing _) fun ec => ?_
  refine .bind framing (.stopIf framing _ _) fun _ => ?_
  refine .bind framing (.gets framing _) fun aborted => ?_
  exact .onlyIf framing (aside_breakWith ids _)

theorem aside_concludeTask (text : Bytes) :
    Within (Aside ids) (concludeTask env text : Program (Sys P) Unit Unit) := by
  have framing := Aside.framing (P := P) ids
  refine .bind framing ?_ fun _ => ?_
  · exact aside_update ids (fun _ => rfl) (fun _ => rfl) (fun _ => rfl) (fun _ => rfl)
      fun s => .refl _ s.log
  · exact .bind framing (aside_enter env ids _ _ _ _) fun _ => .stop framing ()

/-! ## Before and after the calls -/

theorem aside_normaliseRound : Within (Aside ids) (normaliseRound env : Program (Sys P) ε Unit) := by
  have framing := Aside.framing (P := P) ids
  refine .bind framing (.gets framing _) fun first => ?_
  refine .bind framing (.onlyIf framing (aside_enter env ids _ _ _ _)) fun _ => ?_
  refine .bind framing (.gets framing _) fun second => ?_
  refine .bind framing (.onlyIf framing (aside_enter env ids _ _ _ _)) fun _ => ?_
  refine .bind framing (.gets framing _) fun third => ?_
  exact .onlyIf framing (aside_enter env ids _ _ _ _)

theorem aside_memoryTier : Within (Aside ids) (memoryTier env : Program (Sys P) ε Bytes) := by
  intro s
  unfold memoryTier
  dsimp only
  split
  · exact ⟨rfl, rfl, rfl, ⟨[], (List.append_nil _).symm, fun _ none_ =>
      absurd none_ List.not_mem_nil⟩, .refl _ s.log⟩
  · exact (Aside.framing ids).refl s

theorem aside_assemble (plan : IntentPlan) :
    Within (Aside ids) (assemble env plan : Program (Sys P) Failure _) := by
  have framing := Aside.framing (P := P) ids
  refine .bind framing (.stopIf framing _ _) fun _ => ?_
  refine .bind framing (.gets framing _) fun history => ?_
  refine .bind framing (.onlyIf framing (aside_emit env ids _ _ _)) fun _ => ?_
  refine .bind framing (aside_memoryTier env ids) fun memory => ?_
  refine .bind framing (.gets framing _) fun used => ?_
  split
  · exact .stop framing _
  · exact .bind framing (aside_record ids trivial) fun _ => .pure framing _

theorem aside_prepareRound (plan : IntentPlan) :
    Within (Aside ids) (prepareRound env plan : Program (Sys P) Failure _) := by
  have framing := Aside.framing (P := P) ids
  refine .bind framing (aside_setState ids _) fun _ => ?_
  refine .bind framing (.gets framing _) fun used => ?_
  refine .bind framing (.stopIf framing _ _) fun _ => ?_
  refine .bind framing (aside_assemble env ids plan) fun prepared => ?_
  exact .bind framing (aside_emit env ids _ _ _) fun _ => .pure framing _

theorem aside_finishDrive (plan : IntentPlan) :
    Within (Aside ids) (finishDrive env plan : Program (Sys P) ε Unit) := by
  have framing := Aside.framing (P := P) ids
  refine .bind framing (aside_checkpoint env ids) fun _ => ?_
  refine .bind framing ?_ fun _ => ?_
  · exact aside_update ids (fun _ => rfl) (fun _ => rfl) (fun _ => rfl) (fun _ => rfl)
      fun s => .refl _ s.log
  refine .bind framing (.gets framing _) fun ec => ?_
  refine .ite (aside_enter env ids _ _ _ _) (.ite ?_ (aside_enter env ids _ _ _ _))
  refine .bind framing (.gets framing _) fun state => ?_
  refine .bind framing (.onlyIf framing (aside_enter env ids _ _ _ _)) fun _ => ?_
  refine .bind framing (.gets framing _) fun summary => ?_
  exact .onlyIf framing (aside_record ids trivial)

theorem aside_beginDrive (input : Bytes) :
    Within (Aside ids) (beginDrive env input : Program (Sys P) Failure IntentPlan) := by
  have framing := Aside.framing (P := P) ids
  refine .bind framing (.gets framing _) fun before => ?_
  refine .bind framing (.onlyIf framing (aside_setState ids _)) fun _ => ?_
  refine .bind framing (.gets framing _) fun state => ?_
  refine .bind framing (.stopIf framing _ _) fun _ => ?_
  refine .bind framing (.bind framing (aside_pollCancel env ids _) fun _ =>
    .stopIf framing _ _) fun _ => ?_
  refine .bind framing ?_ fun _ => ?_
  · exact aside_update ids (fun _ => rfl) (fun _ => rfl) (fun _ => rfl) (fun _ => rfl)
      fun s => .refl _ s.log
  refine .bind framing (aside_enter env ids _ _ _ _) fun _ => ?_
  exact .bind framing (aside_appendUser env ids _) fun _ => .pure framing _

end Parts

end Opencodepp.Agent
