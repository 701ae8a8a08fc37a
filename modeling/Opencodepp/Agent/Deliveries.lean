import Opencodepp.Agent.Aside
import Opencodepp.Agent.AttemptRule
import Opencodepp.Agent.Network
import Opencodepp.Agent.Retry

/-!
# The streams behind the replies

Every reply is what the frames of its attempts come to.  Which attempts a round has made is
read off the log (`tally`); the frames they deliver are those of their scripts, and a round that
returns has passed all of them, in order, through a provider whose stream was reset into
accumulators that were blank (`oneRound_returns`).
-/

set_option autoImplicit false

namespace Opencodepp.Agent

open Opencodepp.Core
open Opencodepp.Library
open Opencodepp.Library.Program
open Opencodepp.Library.Trace
open Opencodepp.Msg
open Opencodepp.Provider

variable (env : Env)

/-! ## The rounds of a log -/

/-- A completed round: the numbers of its attempts, and its reply. -/
structure Round where
  attempts : List Nat
  acc : Accum

/-- The attempts of the round that is going on, the number of the next attempt, and the
completed rounds, oldest first. -/
structure Tally where
  open_ : List Nat
  next : Nat
  rounds : List Round

/-- The rounds of a log whose first attempt has this number. -/
def tally (start : Nat) : List Ev → Tally
  | [] => ⟨[], start, []⟩
  | .attempt _ _ :: past =>
      let t := tally start past
      ⟨t.open_ ++ [t.next], t.next + 1, t.rounds⟩
  | .reply _ acc :: past =>
      let t := tally start past
      ⟨[], t.next, t.rounds ++ [⟨t.open_, acc⟩]⟩
  | _ :: past => tally start past

/-- Entries of a call of the provider other than its attempts. -/
def Netted (msgs : List Message) : Ev → Prop
  | .attempt _ _ | .reply _ _ => False
  | .request m _ => m = msgs
  | _ => True

theorem netted_of_apart {msgs : List Message} {e : Ev} (apart : Apart e) : Netted msgs e := by
  cases e <;> simp only [Apart] at apart <;> trivial

theorem tally_of_netted {msgs : List Message} {e : Ev} (netted : Netted msgs e) (start : Nat)
    (past : List Ev) : tally start (e :: past) = tally start past := by
  cases e <;> first | rfl | exact netted.elim

theorem tally_extend {msgs : List Message} {past now : List Ev}
    (ext : Extends (Netted msgs) past now) (start : Nat) : tally start now = tally start past := by
  obtain ⟨new, rfl, all⟩ := ext
  induction new with
  | nil => rfl
  | cons e rest inductionHypothesis =>
      obtain ⟨head, tail⟩ := List.forall_mem_cons.mp all
      rw [List.cons_append, tally_of_netted head, inductionHypothesis tail]

/-! ## Within a call of the provider -/

/-- The books and the log while an attempt on these messages is made. -/
structure Meanwhile (msgs : List Message) (s s' : Sys factory) : Prop where
  tokensUsed : s'.session.tokensUsed = s.session.tokensUsed
  messages : s'.session.messages = s.session.messages
  log : Extends (Netted msgs) s.log s'.log

theorem Meanwhile.framing (msgs : List Message) : Framing (Meanwhile msgs) where
  refl s := ⟨rfl, rfl, .refl _ s.log⟩
  trans first second :=
    ⟨second.tokensUsed.trans first.tokensUsed, second.messages.trans first.messages,
      first.log.trans second.log⟩

theorem Meanwhile.steps (msgs : List Message) : AttemptSteps env (Meanwhile msgs) msgs where
  framing := Meanwhile.framing msgs
  poll _ s := ⟨rfl, rfl, .single trivial s.log⟩
  emit phase detail status s := by
    unfold emit
    split
    · exact ⟨rfl, rfl, .single trivial s.log⟩
    · exact (Meanwhile.framing msgs).refl s
  state _ s := ⟨rfl, rfl, .single trivial s.log⟩
  lane _ s := ⟨rfl, rfl, .refl _ s.log⟩
  next s := ⟨rfl, rfl, .refl _ s.log⟩
  request tools s := by
    have netted : Netted msgs (.request msgs tools) := rfl
    exact ⟨rfl, rfl, .single netted s.log⟩
  fresh s := ⟨rfl, rfl, .refl _ s.log⟩
  deliver frame s := by
    unfold deliverFrame Program.update
    dsimp only
    split
    · exact (Meanwhile.framing msgs).refl s
    · split
      · exact ⟨rfl, rfl, .refl _ s.log⟩
      · exact (Meanwhile.framing msgs).refl s

/-! ## Attempts -/

/-- The tally after more attempts. -/
def Tally.more (t : Tally) (made : Nat) : Tally :=
  ⟨t.open_ ++ List.range' t.next made, t.next + made, t.rounds⟩

theorem Tally.more_zero (t : Tally) : t.more 0 = t := by
  unfold Tally.more
  simp

theorem Tally.more_more (t : Tally) (first second : Nat) :
    (t.more first).more second = t.more (first + second) := by
  unfold Tally.more
  simp [List.append_assoc, Nat.add_assoc]

/-- What has been noted during a call of the provider with so many attempts. -/
structure Attempted (made : Nat) (s s' : Sys factory) : Prop where
  tokensUsed : s'.session.tokensUsed = s.session.tokensUsed
  messages : s'.session.messages = s.session.messages
  tally : ∀ start, tally start s'.log = (tally start s.log).more made
  requests : ∀ m tools, .request m tools ∈ s'.log → .request m tools ∈ s.log ∨
    m = s.session.messages

theorem Meanwhile.attempted {s s' : Sys factory}
    (meanwhile : Meanwhile s.session.messages s s') : Attempted 0 s s' where
  tokensUsed := meanwhile.tokensUsed
  messages := meanwhile.messages
  tally start := by rw [tally_extend meanwhile.log, Tally.more_zero]
  requests m tools member := meanwhile.log.mem_or member

theorem Attempted.trans {first second : Nat} {s s' s'' : Sys factory} (one : Attempted first s s')
    (two : Attempted second s' s'') : Attempted (first + second) s s'' where
  tokensUsed := two.tokensUsed.trans one.tokensUsed
  messages := two.messages.trans one.messages
  tally start := by rw [two.tally, one.tally, Tally.more_more]
  requests m tools member := by
    rcases two.requests m tools member with old | same
    · exact one.requests m tools old
    · exact .inr (same.trans one.messages)

/-- The entry of an attempt. -/
theorem attempted_record (state : AgentState) (used : UInt64) (s : Sys factory) :
    Attempted 1 s { s with log := .attempt state used :: s.log } where
  tokensUsed := rfl
  messages := rfl
  tally start := rfl
  requests m tools member := by
    rcases List.mem_cons.mp member with impossible | old
    · cases impossible
    · exact .inl old

/-- One pass of the retry loop makes one attempt, unless it is stopped before. -/
theorem tryOnce_attempted (tools : List ToolSpec) (budget : Budget) (attempt : Nat)
    (seed : UInt32) (s : Sys factory) :
    wp (tryOnce env tools budget attempt seed) (fun _ s' => Attempted 1 s s')
      (fun _ s' => ∃ made, Attempted made s s') s := by
  unfold tryOnce
  rw [wp_bind]
  refine wp_mono (((Meanwhile.steps env s.session.messages).checkCancel env .attempt).wp s)
    (fun _ s₁ polled => ?_) (fun _ _ polled => ⟨0, polled.attempted⟩)
  simp only [wp_bind, wp_gets, wp_record]
  have noted := polled.attempted.trans (attempted_record s₁.session.state s₁.session.tokensUsed s₁)
  have judged (outcome : Except Failure Unit) (s₂ : Sys factory) (upTo : Attempted 1 s s₂) :
      wp (judgeAttempt env attempt seed outcome) (fun _ s' => Attempted 1 s s')
        (fun _ s' => ∃ made, Attempted made s s') s₂ :=
    wp_mono (((Meanwhile.steps env s₂.session.messages).judgeAttempt env attempt seed outcome).wp s₂)
      (fun _ _ rest => upTo.trans rest.attempted) (fun _ _ rest => ⟨1, upTo.trans rest.attempted⟩)
  rw [wp_attempt]
  refine wp_mono (((Meanwhile.steps env s₁.session.messages).streamCall env tools budget).wp _)
    (fun _ s₂ called => ?_) (fun _ s₂ called => ?_)
  · exact judged _ s₂ (noted.trans (Meanwhile.attempted called))
  · exact judged _ s₂ (noted.trans (Meanwhile.attempted called))

/-! ## The frames of the attempts -/

/-- A computed outcome as a specification. -/
theorem Passes.spec {α : Type} {x : Program (Sys factory) Failure α} {s : Sys factory}
    {r : Except Failure α} {line : Line} (passes : Passes env x s r line) :
    wp x (fun a s' => r = .ok a ∧ s'.line = line)
      (fun e s' => (r = .error e ∧ s'.line = line) ∨ e = cancelledFailure) s := by
  unfold wp
  rcases run : x s with ⟨e | a, s'⟩
  · rcases passes with ⟨result, seen, -⟩ | ⟨result, -⟩
    · rw [run] at result seen
      exact .inl ⟨result.symm, seen⟩
    · rw [run] at result
      exact .inr (by cases result; rfl)
  · have ran := passes.result_of_returns (a := a) (by rw [run])
    rw [run] at ran
    exact ⟨ran.1.symm, ran.2⟩

/-- A pass that is judged: the round is over when the attempt has succeeded and the provider
has reported no error, and goes on after some failures. -/
theorem judgeAttempt_spec (attempt : Nat) (seed : UInt32) (called : Except Failure Unit)
    (s : Sys factory) :
    wp (judgeAttempt env attempt seed called)
      (fun next s' => s'.line = s.line ∧
        (next = none → called = .ok () ∧ s.acc.providerErr.ok = true) ∧
        (next ≠ none → ∃ e, called = .error e ∧ e.ec.code ≠ .eCancelled))
      (fun _ _ => True) s := by
  unfold judgeAttempt
  rw [wp_bind, wp_gets]
  cases called with
  | ok _ =>
      rw [wp_bind, wp_lift]
      refine ⟨fun _ checked => ⟨rfl, fun _ => ⟨rfl, ?_⟩, fun some_ => absurd rfl some_⟩,
        fun _ _ => trivial⟩
      by_contra failed
      unfold ErrorCode.check at checked
      rw [dif_pos (by simpa using failed)] at checked
      cases checked
  | error e =>
      rw [wp_bind, wp_stopIf]
      refine ⟨fun _ => trivial, fun notCancelled => ?_⟩
      have other : e.ec.code ≠ .eCancelled := by simpa using notCancelled
      rw [wp_bind, wp_lift]
      refine ⟨fun _ _ => ?_, fun _ _ => trivial⟩
      rw [wp_bind, wp_stopIf]
      refine ⟨fun _ => trivial, fun _ => ?_⟩
      rw [wp_bind]
      refine wp_mono (passes_backoff env _ e s).spec (fun _ s' slept => ?_) (fun _ _ _ => trivial)
      refine ⟨slept.2, fun none_ => ?_, fun _ => ⟨e, rfl, other⟩⟩
      cases none_

/-- The scripts of the attempts with these numbers. -/
def World.scripts (world : World) (numbers : List Nat) : List Attempt := numbers.map world.attempts

theorem Line.tried_concat (line : Line) (size : Nat) (scripts : List Attempt) (script : Attempt) :
    line.tried size (scripts ++ [script]) =
      (line.tried size scripts).next.fed (script.outcome size).1 := by
  unfold Line.tried
  rw [List.foldl_append]
  rfl

/-- Attempts change the stream, and are counted. -/
theorem Line.tried_kept (size : Nat) (scripts : List Attempt) : ∀ line : Line,
    (line.tried size scripts).messages = line.messages ∧
      (line.tried size scripts).requestId = line.requestId ∧
      (line.tried size scripts).attempts = line.attempts + scripts.length := by
  induction scripts with
  | nil =>
      intro line
      exact ⟨rfl, rfl, rfl⟩
  | cons script rest inductionHypothesis =>
      intro line
      obtain ⟨messages, requestId, attempts⟩ :=
        inductionHypothesis (line.next.fed (script.outcome size).1)
      refine ⟨messages, requestId, attempts.trans ?_⟩
      show line.attempts + 1 + rest.length = line.attempts + (rest.length + 1)
      omega

/-- One pass of the retry loop when the request can be written. -/
theorem tryOnce_delivers (tools : List ToolSpec) (budget : Budget) (attempt : Nat) (seed : UInt32)
    {s : Sys factory} {state : Adapter × Accum} {wire : Bytes} (hasLoop : env.opts.hasLoop = true)
    (stream : s.line.stream = some state)
    (request : wireFor env state.1 s.line.messages tools budget s.line.requestId = .ok wire) :
    wp (tryOnce env tools budget attempt seed)
      (fun next s' =>
        s'.line = s.line.next.fed ((env.world.attempts s.line.attempts).outcome wire.length).1 ∧
        (next = none → s'.acc.providerErr.ok = true ∧
          ((env.world.attempts s.line.attempts).outcome wire.length).2 = .ok ()))
      (fun _ _ => True) s := by
  unfold tryOnce
  rw [wp_bind]
  refine wp_mono (passes_checkCancel env .attempt).spec (fun _ s₁ polled => ?_)
    (fun _ _ _ => trivial)
  simp only [wp_bind, wp_gets, wp_record]
  let s₂ : Sys factory :=
    { s₁ with log := .attempt s₁.session.state s₁.session.tokensUsed :: s₁.log }
  have view : s₂.line = s.line := polled.2
  rw [← view] at stream request ⊢
  have judged (called : Except Failure Unit) (s₃ : Sys factory)
      (seen : s₃.line = s₂.line.next.fed
        ((env.world.attempts s₂.line.attempts).outcome wire.length).1)
      (ends : ((env.world.attempts s₂.line.attempts).outcome wire.length).2 = called) :
      wp (judgeAttempt env attempt seed called)
        (fun next s' => s'.line = s₂.line.next.fed
            ((env.world.attempts s₂.line.attempts).outcome wire.length).1 ∧
          (next = none → s'.acc.providerErr.ok = true ∧
            ((env.world.attempts s₂.line.attempts).outcome wire.length).2 = .ok ()))
        (fun _ _ => True) s₃ := by
    refine wp_mono (judgeAttempt_spec env attempt seed called s₃) (fun next s' post => ?_)
      (fun _ _ _ => trivial)
    obtain ⟨same, settled, -⟩ := post
    refine ⟨same.trans seen, fun ended => ?_⟩
    have fed := s₂.line.stream_next_fed stream
      ((env.world.attempts s₂.line.attempts).outcome wire.length).1
    rw [← seen] at fed
    rw [(provider_of_stream ((congrArg Line.stream same).trans fed)).2,
      ← (provider_of_stream fed).2]
    exact ⟨(settled ended).2, ends.trans (settled ended).1⟩
  rw [wp_attempt]
  refine wp_mono (passes_streamCall env tools budget hasLoop stream request).spec
    (fun _ s₃ called => judged _ s₃ called.2 called.1) (fun e s₃ called => ?_)
  rcases called with ⟨ends, seen⟩ | cancelled
  · exact judged _ s₃ seen ends
  · -- a cancelled attempt ends the round
    rw [cancelled]
    refine wp_judgeAttempt env (fun impossible => by cases impossible) (fun _ _ => trivial)
      (fun _ _ => trivial) (fun _ e' _ same other _ => ?_)
    cases same
    exact absurd rfl other

/-- The line is left alone. -/
def SameLine (s s' : Sys factory) : Prop := s'.line = s.line

theorem SameLine.framing : Framing SameLine where
  refl _ := rfl
  trans first second := second.trans first

theorem sameLine_emit {ε : Type} (phase : String) (detail : Bytes) (status : Nat) :
    Within SameLine (emit env phase detail status : Program (Sys factory) ε Unit) := by
  unfold emit
  intro s
  split <;> rfl

theorem sameLine_lift {α : Type} (x : Except Failure α) :
    Within SameLine (lift x : Program (Sys factory) Failure α) := by
  cases x with
  | ok a => exact .pure SameLine.framing a
  | error e => exact .stop SameLine.framing e

theorem sameLine_checkCancel (site : PollSite) :
    Within SameLine (checkCancel env site : Program (Sys factory) Failure Unit) :=
  .bind SameLine.framing (fun _ => rfl) fun _ => .stopIf SameLine.framing _ _

theorem sameLine_connect (script : Attempt) :
    Within SameLine (connect env script : Program (Sys factory) Failure Unit) := by
  refine .bind SameLine.framing (sameLine_lift _) fun _ => ?_
  split
  · exact .pure SameLine.framing _
  · exact .bind SameLine.framing (sameLine_emit env _ _ _) fun _ => .stop SameLine.framing _

/-- An attempt whose request cannot be written fails, and delivers nothing. -/
theorem streamCall_refused (tools : List ToolSpec) (budget : Budget) {s : Sys factory}
    {state : Adapter × Accum} (stream : s.line.stream = some state)
    (refused : env.opts.hasLoop = false ∨
      ∃ e, wireFor env state.1 s.line.messages tools budget s.line.requestId = .error e) :
    wp (streamCall env s.line.messages tools budget) (fun _ _ => False)
      (fun _ s' => s'.line = s.line.next) s := by
  unfold streamCall
  rw [wp_bind]
  have counted : wp (nextAttempt env : Program (Sys factory) Failure Attempt)
      (fun _ s₁ => s₁.line = s.line.next) (fun _ _ => False) s := by
    show ({ s with count.attempts := s.count.attempts + 1 } : Sys factory).line = s.line.next
    rfl
  refine wp_mono counted (fun script s₁ seen₁ => ?_) (fun _ _ impossible => impossible.elim)
  rw [wp_bind, wp_stopIf]
  refine ⟨fun _ => seen₁, fun hasLoop => ?_⟩
  rw [wp_bind]
  refine wp_mono ((sameLine_checkCancel env .call).wp s₁) (fun _ s₂ same => ?_)
    (fun _ _ same => same.trans seen₁)
  have seen₂ : s₂.line = s.line.next := same.trans seen₁
  have bound : s₂.session.provider = some state.1 :=
    (provider_of_stream ((congrArg Line.stream seen₂).trans stream)).1
  rw [wp_bind, wp_gets, bound]
  dsimp only
  rw [wp_bind, wp_record, wp_bind, wp_lift]
  refine ⟨fun req built => ?_, fun _ _ => seen₂⟩
  rw [wp_bind, wp_lift]
  refine ⟨fun url split_ => ?_, fun _ _ => seen₂⟩
  rw [wp_bind, wp_stopIf]
  refine ⟨fun _ => seen₂, fun http => ?_⟩
  -- the origin is fine, so it is the text of the request that cannot be written
  have unwritten : ∃ e, wireRequest url req s.line.requestId = .error e := by
    rcases refused with none_ | ⟨e, failed⟩
    · rw [none_] at hasLoop
      cases hasLoop
    · have built' : state.1.buildRequest s.line.messages tools env.session.model budget = .ok req :=
        built
      have scheme : url.scheme = str "http" := by simpa using http
      refine ⟨e, ?_⟩
      unfold wireFor at failed
      rw [built', split_] at failed
      simpa [scheme] using failed
  obtain ⟨e, failed⟩ := unwritten
  unfold exchange
  rw [wp_bind, wp_setState, wp_bind]
  unfold sendRequest
  rw [wp_bind]
  refine wp_mono ((sameLine_emit env _ _ _).wp _) (fun _ s₃ same₃ => ?_)
    (fun _ _ same₃ => same₃.trans seen₂)
  rw [wp_bind]
  refine wp_mono ((sameLine_connect env script).wp s₃) (fun _ s₄ same₄ => ?_)
    (fun _ _ same₄ => same₄.trans (same₃.trans seen₂))
  have seen₄ : s₄.line = s.line.next := same₄.trans (same₃.trans seen₂)
  have requestId : s₄.session.requestId = s.line.requestId := congrArg Line.requestId seen₄
  rw [wp_bind, wp_gets, wp_bind, wp_lift, requestId, failed]
  refine ⟨fun _ impossible => ?_, fun _ _ => seen₄⟩
  cases impossible

/-! ## A round -/

/-- A round that has returned: what its attempts have delivered stands in the accumulators. -/
structure Returned (p : Adapter) (size made : Nat) (s s' : Sys factory) : Prop where
  noted : Attempted made s s'
  line : s'.line = (s.requesting env p).line.tried size
    (env.world.scripts (List.range' s.count.attempts made))
  quiet : s'.acc.providerErr.ok = true
  last : ∃ before, made = before + 1 ∧
    ((env.world.attempts (s.count.attempts + before)).outcome size).2 = .ok ()

theorem ensureProvider_spec (s : Sys factory) :
    wp (ensureProvider env)
      (fun p s' => boundProvider env s = .ok p ∧ s' = { s with session.provider := some p })
      (fun _ _ => True) s := by
  cases bound : boundProvider env s with
  | ok p =>
      have ensured := ensureProvider_eq env bound
      unfold wp
      rw [ensured]
      exact ⟨rfl, rfl⟩
  | error e =>
      unfold boundProvider at bound
      unfold ensureProvider
      rw [wp_bind, wp_gets]
      cases held : s.session.provider with
      | some q =>
          rw [held] at bound
          cases bound
      | none =>
          rw [held] at bound
          dsimp only at bound ⊢
          split at bound
          · next unnamed =>
              rw [if_pos unnamed]
              trivial
          · next named =>
              have made : factory.make ⟨env.session.providerId, env.session.apiKey,
                  env.session.model.baseUrl, [], env.session.model.defaultMaxTokens⟩ = .error e :=
                bound
              rw [if_neg named, made]
              trivial

theorem requesting_attempted (s : Sys factory) (p : Adapter) :
    Attempted 0 s (s.requesting env p) :=
  Meanwhile.attempted ⟨rfl, rfl, .refl _ s.log⟩

theorem World.scripts_concat (world : World) (first made : Nat) :
    world.scripts (List.range' first (made + 1)) =
      world.scripts (List.range' first made) ++ [world.attempts (first + made)] := by
  unfold World.scripts
  rw [List.range'_1_concat, List.map_append]
  rfl

/-- The retry loop when the request can be written. -/
theorem retryLoop_delivers (tools : List ToolSpec) (budget : Budget) {s : Sys factory}
    {p : Adapter} {wire : Bytes} (hasLoop : env.opts.hasLoop = true)
    (request : wireFor env p s.session.messages tools budget
      (s.requesting env p).session.requestId = .ok wire) (seed : UInt32) :
    wp (retryLoop env tools budget (maxAttempts env) 1 seed)
      (fun _ s' => ∃ made, Returned env p wire.length made s s') (fun _ _ => True)
      (s.requesting env p) := by
  refine wp_retryLoop env
    (I := fun _ s' => ∃ made, Attempted made s s' ∧
      s'.line = (s.requesting env p).line.tried wire.length
        (env.world.scripts (List.range' s.count.attempts made)))
    (Q := fun s' => ∃ made, Returned env p wire.length made s s')
    (fun attempt seed s' _ held => ?_) ⟨0, requesting_attempted env s p, rfl⟩ seed
  obtain ⟨made, noted, line⟩ := held
  obtain ⟨messages, requestId, attempts⟩ := Line.tried_kept wire.length
    (env.world.scripts (List.range' s.count.attempts made)) (s.requesting env p).line
  have count : s'.line.attempts = s.count.attempts + made := by
    rw [line, attempts]
    show s.count.attempts + _ = _
    simp [World.scripts]
  have stream := Line.stream_tried wire.length
    (env.world.scripts (List.range' s.count.attempts made)) (s.stream_requesting env p)
  have config : (replay (clean p) (framesOf wire.length
      (env.world.scripts (List.range' s.count.attempts made)))).1.resetStream = p.resetStream := by
    rw [resetStream_replay]
    cases p <;> rfl
  rw [← line] at stream messages requestId
  have request' : wireFor env (replay (clean p) (framesOf wire.length
      (env.world.scripts (List.range' s.count.attempts made)))).1 s'.line.messages tools budget
      s'.line.requestId = .ok wire := by
    rw [wireFor_congr env config, messages, requestId]
    exact request
  refine wp_mono (wp_and (tryOnce_attempted env tools budget attempt seed s')
    (tryOnce_delivers env tools budget attempt seed hasLoop stream request'))
    (fun next s'' post => ?_) (fun _ _ _ => trivial)
  obtain ⟨once, grown, settled⟩ := post
  have line' : s''.line = (s.requesting env p).line.tried wire.length
      (env.world.scripts (List.range' s.count.attempts (made + 1))) := by
    rw [World.scripts_concat, Line.tried_concat, grown, line, ← line, count, line]
  rw [count] at settled
  exact ⟨fun ended => ⟨made + 1, noted.trans once, line', (settled ended).1, made, rfl, (settled ended).2⟩,
    fun _ => ⟨made + 1, noted.trans once, line'⟩⟩

/-- The retry loop when the request cannot be written: it never returns. -/
theorem retryLoop_refused (tools : List ToolSpec) (budget : Budget) {s : Sys factory}
    {p : Adapter} (refused : env.opts.hasLoop = false ∨
      ∃ e, wireFor env p s.session.messages tools budget
        (s.requesting env p).session.requestId = .error e) (seed : UInt32) :
    wp (retryLoop env tools budget (maxAttempts env) 1 seed) (fun _ _ => False) (fun _ _ => True)
      (s.requesting env p) := by
  refine wp_retryLoop env
    (I := fun _ s' => ∃ n, s'.line = { (s.requesting env p).line with attempts := n })
    (Q := fun _ => False) (fun attempt seed s' _ held => ?_) ⟨_, rfl⟩ seed
  obtain ⟨n, line⟩ := held
  unfold tryOnce
  rw [wp_bind]
  refine wp_mono ((sameLine_checkCancel env .attempt).wp s') (fun _ s₁ polled => ?_)
    (fun _ _ _ => trivial)
  simp only [wp_bind, wp_gets, wp_record]
  let s₂ : Sys factory :=
    { s₁ with log := .attempt s₁.session.state s₁.session.tokensUsed :: s₁.log }
  have view : s₂.line = { (s.requesting env p).line with attempts := n } := polled.trans line
  have stream : s₂.line.stream = some (clean p) := by
    rw [view]
    exact s.stream_requesting env p
  have refused' : env.opts.hasLoop = false ∨ ∃ e, wireFor env (clean p).1 s₂.line.messages tools
      budget s₂.line.requestId = .error e := by
    have config : (clean p).1.resetStream = p.resetStream := by cases p <;> rfl
    rw [wireFor_congr env config, view]
    exact refused
  rw [wp_attempt]
  refine wp_mono (streamCall_refused env tools budget stream refused')
    (fun _ _ impossible => impossible.elim) (fun e s₃ same => ?_)
  refine wp_mono (judgeAttempt_spec env attempt seed (.error e) s₃) (fun next s₄ post => ?_)
    (fun _ _ _ => trivial)
  obtain ⟨kept, settled, -⟩ := post
  refine ⟨fun ended => ?_, fun _ => ⟨n + 1, ?_⟩⟩
  · cases (settled ended).1
  · rw [kept, same, view]
    rfl

/-- **A round that returns has delivered the frames of its attempts.** -/
theorem oneRound_returns (tools : List ToolSpec) (budget : Budget) (s : Sys factory) :
    wp (oneRound env tools budget)
      (fun _ s' => ∃ p size made, boundProvider env s = .ok p ∧ Returned env p size made s s')
      (fun _ _ => True) s := by
  unfold oneRound
  rw [wp_bind]
  refine wp_mono (ensureProvider_spec env s) (fun p s₁ ensured => ?_) (fun _ _ _ => trivial)
  obtain ⟨bound, rfl⟩ := ensured
  rw [wp_bind]
  have opened : wp (openRequest env p : Program (Sys factory) Failure Unit)
      (fun _ s₂ => s₂ = s.requesting env p) (fun _ _ => False)
      { s with session.provider := some p } := by
    unfold openRequest beginRequest
    simp only [wp_bind, wp_update]
    rfl
  refine wp_mono opened (fun _ s₂ same => ?_) (fun _ _ impossible => impossible.elim)
  rw [same]
  by_cases served : env.opts.hasLoop = true ∧ ∃ wire, wireFor env p s.session.messages tools budget
      (s.requesting env p).session.requestId = .ok wire
  · obtain ⟨hasLoop, wire, request⟩ := served
    refine wp_mono (retryLoop_delivers env tools budget hasLoop request _) (fun _ s' post => ?_)
      (fun _ _ _ => trivial)
    obtain ⟨made, returned⟩ := post
    exact ⟨p, wire.length, made, bound, returned⟩
  · have refused : env.opts.hasLoop = false ∨ ∃ e, wireFor env p s.session.messages tools budget
        (s.requesting env p).session.requestId = .error e := by
      cases hasLoop : env.opts.hasLoop with
      | false => exact .inl rfl
      | true =>
          cases request : wireFor env p s.session.messages tools budget
              (s.requesting env p).session.requestId with
          | error e => exact .inr ⟨e, rfl⟩
          | ok wire => exact absurd ⟨hasLoop, wire, request⟩ served
    exact wp_mono (retryLoop_refused env tools budget refused _)
      (fun _ _ impossible => impossible.elim) (fun _ _ _ => trivial)

/-! ## The adapter of a session -/

/-- The adapter a session works with, as a request starts with it. -/
def makerOf (s : Sys factory) : Except Failure Adapter := (boundProvider env s).map Adapter.resetStream

/-- The session goes on with the same adapter. -/
def SameMaker (s s' : Sys factory) : Prop := makerOf env s' = makerOf env s

theorem SameMaker.of_provider {s s' : Sys factory}
    (same : s'.session.provider = s.session.provider) : SameMaker env s s' := by
  unfold SameMaker makerOf boundProvider
  rw [same]

theorem makerOf_of_bound {s : Sys factory} {p : Adapter} (bound : s.session.provider = some p) :
    makerOf env s = .ok p.resetStream := by
  unfold makerOf boundProvider
  rw [bound]
  rfl

theorem SameMaker.framing : Framing (SameMaker env) where
  refl _ := rfl
  trans first second := second.trans first

theorem SameMaker.steps (msgs : List Message) : AttemptSteps env (SameMaker env) msgs where
  framing := SameMaker.framing env
  poll _ _ := .of_provider env rfl
  emit phase detail status s := by
    unfold emit
    split
    · exact .of_provider env rfl
    · rfl
  state _ _ := .of_provider env rfl
  lane _ _ := .of_provider env rfl
  next _ := .of_provider env rfl
  request _ _ := .of_provider env rfl
  fresh _ := .of_provider env rfl
  deliver frame s := by
    unfold deliverFrame Program.update
    dsimp only
    split
    · exact (SameMaker.framing env).refl s
    · next p bound =>
        split
        · have parsed : (p.parseFrame frame).2.1.resetStream = p.resetStream :=
            resetStream_deliver (p, s.acc) frame
          have after := makerOf_of_bound env
            (s := { s with
              session.provider := some (p.parseFrame frame).2.1
              parseErr := (p.parseFrame frame).1
              acc := (p.parseFrame frame).2.2.foldl Accum.sink s.acc }) rfl
          rw [parsed] at after
          exact after.trans (makerOf_of_bound env bound).symm
        · exact (SameMaker.framing env).refl s

/-- A round keeps the adapter, however it ends. -/
theorem oneRound_sameMaker (tools : List ToolSpec) (budget : Budget) :
    Within (SameMaker env) (oneRound env tools budget : Program (Sys factory) Failure Unit) := by
  refine .of_wp fun s => ?_
  have ensures : Within (SameMaker env) (ensureProvider env : Program (Sys factory) Failure Adapter) := by
    refine .of_wp fun s => ?_
    unfold ensureProvider
    rw [wp_bind, wp_gets]
    cases held : s.session.provider with
    | some p => exact (rfl : makerOf env s = makerOf env s)
    | none =>
        dsimp only
        rw [wp_ite]
        refine ⟨fun _ => rfl, fun named => ?_⟩
        split
        · rfl
        · next p made =>
            rw [wp_bind, wp_update, wp_pure]
            have unbound : boundProvider env s = .ok p := by
              unfold boundProvider
              rw [held]
              dsimp only
              rw [if_neg named]
              exact made
            have before : makerOf env s = .ok p.resetStream := by
              unfold makerOf
              rw [unbound]
              rfl
            exact (makerOf_of_bound env rfl).trans before.symm
  unfold oneRound
  rw [wp_bind]
  refine wp_mono (wp_and (ensures.wp s) (ensureProvider_spec env s)) (fun p s₁ post => ?_)
    (fun _ _ post => post.1)
  obtain ⟨same, bound, rfl⟩ := post
  rw [wp_bind]
  have opened : wp (openRequest env p : Program (Sys factory) Failure Unit)
      (fun _ s₂ => SameMaker env s s₂) (fun _ _ => False)
      { s with session.provider := some p } := by
    unfold openRequest beginRequest
    simp only [wp_bind, wp_update]
    have before : makerOf env s = .ok p.resetStream := by
      unfold makerOf
      rw [bound]
      rfl
    have idem : p.resetStream.resetStream = p.resetStream := by cases p <;> rfl
    have after := makerOf_of_bound env (s := s.requesting env p) (p := p.resetStream) rfl
    rw [idem] at after
    exact after.trans before.symm
  refine wp_mono opened (fun _ s₂ same₂ => ?_) (fun _ _ impossible => impossible.elim)
  have loops := AttemptSteps.retryLoop env (R := SameMaker env) (SameMaker.steps env)
    (fun _ _ _ => .of_provider env rfl) tools budget (maxAttempts env) 1
    (Net.setSeed (fnv1a32 env.session.id))
  exact wp_mono (loops.wp s₂) (fun _ _ same₃ => (SameMaker.framing env).trans same₂ same₃)
    (fun _ _ same₃ => (SameMaker.framing env).trans same₂ same₃)

/-- What a round notes, however it ends. -/
theorem oneRound_attempted (tools : List ToolSpec) (budget : Budget) (s : Sys factory) :
    wp (oneRound env tools budget) (fun _ s' => ∃ made, Attempted made s s')
      (fun _ s' => ∃ made, Attempted made s s') s := by
  have quietly {α : Type} {x : Program (Sys factory) Failure α} {s s' : Sys factory}
      (quiet : Quiet (Speaks "backoff") s s') : Attempted 0 s s' :=
    Meanwhile.attempted ⟨congrArg Books.tokensUsed quiet.books, congrArg Books.messages quiet.books,
      quiet.log.mono fun e spoken => by cases e <;> simp only [Speaks] at spoken <;> trivial⟩
  unfold oneRound
  rw [wp_bind]
  refine wp_mono ((quiet_ensureProvider env (A := Speaks "backoff")).wp s) (fun p s₁ ensured => ?_)
    (fun _ _ quiet => ⟨0, quietly (x := ensureProvider env) quiet⟩)
  rw [wp_bind]
  have upTo₁ := quietly (x := ensureProvider env) ensured
  refine wp_mono ((quiet_openRequest env p).wp s₁) (fun _ s₂ opened => ?_)
    (fun _ _ quiet => ⟨_, upTo₁.trans (quietly (x := openRequest env p) quiet)⟩)
  have upTo₂ := upTo₁.trans (quietly (x := openRequest env p) opened)
  refine wp_retryLoop env (I := fun _ s' => ∃ made, Attempted made s s')
    (Q := fun s' => ∃ made, Attempted made s s') (fun attempt seed s' _ held => ?_) ⟨_, upTo₂⟩ _
  obtain ⟨made, noted⟩ := held
  refine wp_mono (tryOnce_attempted env tools budget attempt seed s') (fun next s'' once => ?_)
    (fun _ s'' rest => ?_)
  · exact ⟨fun _ => ⟨_, noted.trans once⟩, fun _ => ⟨_, noted.trans once⟩⟩
  · obtain ⟨more, rest⟩ := rest
    exact ⟨_, noted.trans rest⟩

end Opencodepp.Agent
