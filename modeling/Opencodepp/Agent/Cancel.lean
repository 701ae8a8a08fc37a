import Opencodepp.Agent.Lifecycle

/-!
# Cancellation

The cancel flag is polled at the top of a round, between tools, and at every step of a call
of the provider.  A poll inside a call that finds the flag set ends the drive as cancelled
(`oneRound_unheard`), and so does a tool that reports cancellation.  A poll between tools
only leaves the tool loop; the flag is then found at the top of the next round, which leaves
the round loop without an error.
-/

set_option autoImplicit false

namespace Opencodepp.Agent

open Opencodepp.Core
open Opencodepp.Library
open Opencodepp.Library.Program
open Opencodepp.Library.Trace
open Opencodepp.Msg
open Opencodepp.Provider

variable {P : Provider} {ε : Type} (env : Env)

/-! ## What is observed -/

/-- The flag was found set after the task had begun. -/
def Heard (log : List Ev) : Prop := ∃ site, site ≠ .entry ∧ .poll site true ∈ log

instance (log : List Ev) : Decidable (Heard log) :=
  decidable_of_iff
    (log.any fun
      | .poll site seen => site ≠ .entry && seen
      | _ => false) (by
    rw [List.any_eq_true]
    constructor
    · rintro ⟨e, member, found⟩
      cases e <;> simp at found
      case poll site seen => exact ⟨site, found.1, found.2 ▸ member⟩
    · rintro ⟨site, inner, member⟩
      exact ⟨_, member, by simp [inner]⟩)

instance (site : PollSite) (seen : Bool) (log : List Ev) : Decidable (Ev.poll site seen ∈ log) :=
  decidable_of_iff
    (log.any fun
      | .poll site' seen' => site' = site && seen' = seen
      | _ => false) (by
    rw [List.any_eq_true]
    constructor
    · rintro ⟨e, member, found⟩
      cases e <;> simp at found
      case poll => exact found.1 ▸ found.2 ▸ member
    · intro member
      exact ⟨_, member, by simp⟩)

/-- A tool reported that it was cancelled. -/
def ToolCanceled (log : List Ev) : Prop :=
  ∃ spec inv before result after,
    .execute spec inv before result after ∈ log ∧ result.status = .canceled

/-- An entry that is not a poll that finds the flag set. -/
def Unheeding : Ev → Prop
  | .poll site seen => site ≠ .entry → seen = false
  | _ => True

/-- An entry that is not the run of a tool. -/
def Idle : Ev → Prop
  | .execute _ _ _ _ _ => False
  | _ => True

theorem Heard.earlier {A : Ev → Prop} {past now : List Ev} (ext : Extends A past now)
    (unheeding : ∀ e, A e → Unheeding e) (heard : Heard now) : Heard past := by
  obtain ⟨site, inner, member⟩ := heard
  rcases ext.mem_or member with inPast | new
  · exact ⟨site, inner, inPast⟩
  · have missed : true = false := unheeding _ new inner
    cases missed

theorem ToolCanceled.earlier {A : Ev → Prop} {past now : List Ev} (ext : Extends A past now)
    (idle : ∀ e, A e → Idle e) (canceled : ToolCanceled now) : ToolCanceled past := by
  obtain ⟨spec, inv, before, result, after, member, status⟩ := canceled
  rcases ext.mem_or member with inPast | new
  · exact ⟨spec, inv, before, result, after, inPast, status⟩
  · exact (idle _ new).elim

theorem Heard.tail {e : Ev} {log : List Ev} (heard : Heard (e :: log))
    (unheeding : Unheeding e) : Heard log :=
  heard.earlier (.single unheeding log) fun _ class_ => class_

theorem ToolCanceled.tail {e : Ev} {log : List Ev} (canceled : ToolCanceled (e :: log))
    (idle : Idle e) : ToolCanceled log :=
  canceled.earlier (.single idle log) fun _ class_ => class_

/-! ## A call of the provider -/

/-- The flag has not been found set. -/
def Unheard (s : Sys P) : Prop := ¬Heard s.log

/-- A failure after the flag was found set says so. -/
def Told (e : Failure) (s : Sys P) : Prop := Heard s.log → e.ec.code = .eCancelled

/-- Steps without a poll. -/
def Mute : AgentState → Ev → Prop
  | _, .poll _ _ => False
  | _, _ => True

theorem unheard_of_mute {s s' : Sys P} (quiet : Quiet Mute s s') (unheard : Unheard s) :
    Unheard s' := by
  intro heard
  refine unheard (heard.earlier quiet.log fun e mute => ?_)
  cases e <;> trivial

theorem told_of_unheard {e : Failure} {s : Sys P} (unheard : Unheard s) : Told e s :=
  fun heard => absurd heard unheard

theorem maintains_of_mute {α : Type} {x : Program (Sys P) Failure α}
    (within : Within (Quiet Mute) x) : Maintains Unheard Told x := by
  intro s unheard
  exact wp_mono (within.wp s) (fun _ _ quiet => unheard_of_mute quiet unheard)
    (fun _ _ quiet => told_of_unheard (unheard_of_mute quiet unheard))

theorem maintains_emit {phase : String} {detail : Bytes} {status : Nat} :
    Maintains Unheard Told (emit env phase detail status : Program (Sys P) Failure Unit) :=
  maintains_of_mute (quiet_emit env fun _ _ _ => trivial)

theorem maintains_stop {α : Type} {e : Failure} :
    Maintains Unheard Told (Program.stop e : Program (Sys P) Failure α) :=
  .stop fun _ unheard => told_of_unheard unheard

theorem maintains_lift {α : Type} (x : Except Failure α) :
    Maintains Unheard Told (lift x : Program (Sys P) Failure α) :=
  maintains_of_mute (quiet_lift x)

theorem maintains_setState (target : AgentState) :
    Maintains Unheard Told (setState target : Program (Sys P) Failure Unit) := by
  intro s unheard heard
  exact unheard (heard.tail trivial)

/-- A poll that finds the flag set ends the call as cancelled. -/
theorem maintains_checkCancel (site : PollSite) :
    Maintains Unheard Told (checkCancel env site : Program (Sys P) Failure Unit) := by
  intro s unheard
  unfold checkCancel
  rw [wp_bind, wp_pollCancel, wp_stopIf]
  exact ⟨fun _ _ => rfl, fun clear heard => unheard (heard.tail fun _ => clear)⟩

theorem maintains_sendAll : ∀ (outcomes : List (Except Failure Nat)) (remaining : Nat),
    Maintains Unheard Told (sendAll env outcomes remaining : Program (Sys P) Failure Unit) := by
  intro outcomes
  induction outcomes with
  | nil =>
      intro remaining
      unfold sendAll
      split
      · exact .pure ()
      · exact .bind (maintains_checkCancel env .send) fun _ => maintains_stop
  | cons outcome rest inductionHypothesis =>
      intro remaining
      unfold sendAll
      split
      · exact .pure ()
      · refine .bind (maintains_checkCancel env .send) fun _ => ?_
        refine .bind (maintains_lift outcome) fun sent => ?_
        exact .bind (.stopIf fun _ unheard => told_of_unheard unheard)
          fun _ => inductionHypothesis _

theorem maintains_readHead : ∀ reads : List HeadRead,
    Maintains Unheard Told (readHead env reads : Program (Sys P) Failure Nat) := by
  have poll := maintains_checkCancel (P := P) env .read
  intro reads
  induction reads with
  | nil => exact .bind poll fun _ => maintains_stop
  | cons read rest inductionHypothesis =>
      cases read with
      | fail failure => exact .bind poll fun _ => maintains_stop
      | eof => exact .bind poll fun _ => maintains_stop
      | more => exact .bind poll fun _ => inductionHypothesis
      | head code => exact .bind poll fun _ => .pure code

theorem maintains_drainBody : ∀ (steps : List BodyStep) (bodyEnd : Except Failure Unit),
    Maintains Unheard Told (drainBody env steps bodyEnd : Program (Sys P) Failure Unit) := by
  intro steps
  induction steps with
  | nil =>
      intro bodyEnd
      exact maintains_lift bodyEnd
  | cons step rest inductionHypothesis =>
      intro bodyEnd
      refine .bind (maintains_checkCancel env .feed) fun _ => ?_
      refine .bind (.forEach (fun frame => maintains_of_mute (quiet_deliverFrame frame)) _)
        fun _ => ?_
      exact .bind (maintains_lift _) fun _ => inductionHypothesis bodyEnd

theorem maintains_streamBody (script : Attempt) :
    Maintains Unheard Told (streamBody env script : Program (Sys P) Failure Unit) := by
  refine .bind (maintains_of_mute ?_) fun _ => ?_
  · exact quiet_update (fun _ => rfl) (fun _ => rfl) (fun _ => rfl) (fun _ => rfl)
  intro s unheard
  rw [wp_bind, wp_attempt]
  refine wp_mono (maintains_drainBody env script.body script.bodyEnd s unheard)
    (fun _ s₁ unheard₁ => ?_) (fun e s₁ told => ?_)
  · refine Maintains.bind (.gets _) (fun parseErr => ?_) s₁ unheard₁
    split
    · exact maintains_stop
    · exact maintains_emit env
  · -- the failure of the body is reported and handed on
    rw [wp_bind]
    refine wp_emit env fun s₂ quiet heard => told (heard.earlier quiet.log fun e reports => ?_)
    cases e <;> trivial

theorem maintains_sendRequest (script : Attempt) (url : UrlParts) (req : RequestBytes) :
    Maintains Unheard Told (sendRequest env script url req : Program (Sys P) Failure Nat) := by
  have connects : Maintains Unheard Told (connect env script : Program (Sys P) Failure Unit) := by
    refine .bind (maintains_lift _) fun _ => ?_
    split
    · exact .pure ()
    · exact .bind (maintains_emit env) fun _ => maintains_stop
  refine .bind (maintains_emit env) fun _ => .bind connects fun _ => ?_
  refine .bind (.gets _) fun _ => .bind (maintains_lift _) fun _ => ?_
  exact .bind (maintains_sendAll env _ _) fun _ => maintains_readHead env _

theorem maintains_receive (script : Attempt) (code : Nat) :
    Maintains Unheard Told (receive env script code : Program (Sys P) Failure Unit) := by
  unfold receive
  split
  · exact .bind (maintains_emit env) fun _ => maintains_stop
  · refine .bind (maintains_setState _) fun _ => ?_
    exact .bind (maintains_emit env) fun _ => maintains_streamBody env script

theorem maintains_streamCall (msgs : List Message) (tools : List ToolSpec) (budget : Budget) :
    Maintains Unheard Told
      (streamCall env msgs tools budget : Program (Sys P) Failure Unit) := by
  refine .bind (maintains_of_mute (quiet_nextAttempt env)) fun script => ?_
  refine .bind (.stopIf fun _ unheard => told_of_unheard unheard) fun _ => ?_
  refine .bind (maintains_checkCancel env .call) fun _ => .bind (.gets _) fun bound => ?_
  split
  · exact maintains_stop
  · refine .bind (maintains_of_mute (quiet_record fun _ => trivial)) fun _ => ?_
    refine .bind (maintains_lift _) fun req => .bind (maintains_lift _) fun url => ?_
    refine .bind (.stopIf fun _ unheard => told_of_unheard unheard) fun _ => ?_
    refine .bind (maintains_setState _) fun _ => ?_
    exact .bind (maintains_sendRequest env script url req)
      fun code => maintains_receive env script code

/-! ## The retry loop -/

/-- A flag that was found set stays set. -/
def Remembered (s : Sys P) : Prop := Heard s.log → s.cancel = true

theorem remembered_of_quiet {A : AgentState → Ev → Prop} {s s' : Sys P} (quiet : Quiet A s s')
    (unheeding : ∀ e, A s.session.state e → Unheeding e) (remembered : Remembered s) :
    Remembered s' :=
  fun heard => quiet.cancel (remembered (heard.earlier quiet.log unheeding))

theorem wp_sleepSlices {E : ε → Sys P → Prop} : ∀ (slices : Nat) (s : Sys P), Remembered s →
    wp (sleepSlices env slices) (fun _ => Remembered) E s := by
  intro slices
  induction slices with
  | zero =>
      intro s remembered
      exact remembered
  | succ slices inductionHypothesis =>
      intro s remembered
      unfold sleepSlices
      rw [wp_bind, wp_pollCancel, wp_ite]
      refine ⟨fun seen _ => by simp [seen], fun notSeen => inductionHypothesis _ ?_⟩
      intro heard
      have clear : Unheeding (.poll .backoff s.cancel) := fun _ => by simpa using notSeen
      exact absurd (remembered (heard.tail clear)) notSeen

theorem wp_backoff {decision : Net.RetryDecision} {e : Failure} {E : ε → Sys P → Prop}
    {s : Sys P} (remembered : Remembered s) :
    wp (backoff env decision e) (fun _ => Remembered) E s := by
  unfold backoff
  rw [wp_bind, wp_setLane, wp_bind]
  refine wp_emit env fun s₁ quiet => ?_
  have kept : Remembered s₁ :=
    remembered_of_quiet quiet (fun e reports => by cases e <;> trivial) remembered
  rw [wp_bind]
  exact wp_mono (wp_sleepSlices env _ s₁ kept) (fun _ _ held => held) (fun _ _ exited => exited)

theorem tryOnce_remembered {tools : List ToolSpec} (budget : Budget) (attempt : Nat)
    (seed : UInt32) {s : Sys P} (remembered : Remembered s) :
    wp (tryOnce env tools budget attempt seed)
      (fun next s' => (next = none → Unheard s') ∧ (next ≠ none → Remembered s')) Told s := by
  unfold tryOnce checkCancel
  rw [wp_bind, wp_bind, wp_pollCancel, wp_stopIf]
  refine ⟨fun _ _ => rfl, fun clear => ?_⟩
  simp only [wp_bind, wp_gets, wp_record, wp_attempt]
  have unheard : ¬Heard s.log := fun heard => by
    rw [remembered heard] at clear
    cases clear
  refine wp_mono (maintains_streamCall env s.session.messages tools budget _ ?_)
    (fun _ s₁ unheard₁ => ?_) (fun e s₁ told => ?_)
  · exact fun heard => unheard ((heard.tail trivial).tail fun _ => clear)
  · exact wp_judgeAttempt env (fun _ => ⟨fun _ => unheard₁, fun some_ => absurd rfl some_⟩)
      (fun _ _ => told_of_unheard unheard₁) (fun _ _ => told_of_unheard unheard₁)
      (fun _ _ _ impossible => by cases impossible)
  · -- a failure that is not a cancellation means that the flag was not found set
    have unheard₁ (other : e.ec.code ≠ .eCancelled) : Unheard s₁ := fun heard => other (told heard)
    refine wp_judgeAttempt env (fun impossible => by cases impossible) ?_ ?_ ?_
    · rintro _ ⟨⟩
      exact told
    · intro e' other
      exact told_of_unheard (unheard₁ (other e rfl))
    · rintro decision _ seed' ⟨⟩ other _
      refine wp_mono (wp_backoff env fun heard => absurd heard (unheard₁ other))
        (fun _ s₂ held => ⟨fun impossible => (by cases impossible), fun _ => held⟩)
        (fun _ _ exited => exited)

/-- **A call of the provider obeys the flag.**  When it returns no poll has found the flag
set; when a poll has, it fails as cancelled. -/
theorem oneRound_unheard (tools : List ToolSpec) (budget : Budget) :
    Maintains Unheard Told (oneRound env tools budget : Program (Sys P) Failure Unit) := by
  refine .bind (maintains_of_mute (quiet_ensureProvider env)) fun p => ?_
  refine .bind (maintains_of_mute ?_) fun _ s unheard => ?_
  · have framing := Quiet.framing (P := P) Mute
    refine .bind framing ?_ fun _ => .bind framing (quiet_beginRequest env) fun _ => ?_
    all_goals exact quiet_update (fun _ => rfl) (fun _ => rfl) (fun _ => rfl) (fun _ => rfl)
  · exact wp_retryLoop env (I := fun _ => Remembered)
      (fun attempt seed s' _ remembered => tryOnce_remembered env budget attempt seed remembered)
      (fun heard => absurd heard unheard) _

/-! ## Tools -/

theorem unheeding_of_moveEv {e : Ev} (move : MoveEv e) : Unheeding e := by
  cases e <;> trivial

theorem idle_of_moveEv {e : Ev} (move : MoveEv e) : Idle e := by
  cases e <;> trivial

/-- Only what was dispatched has run, and its result is the result of the call. -/
theorem executions_result {reg : Tools.ToolRegistry} {gate : Tools.Gate}
    {inv : Tools.Invocation} {s : Sys P} {e : Ev} (member : e ∈ executions reg gate inv s) :
    ∃ spec before after, e = .execute spec inv before
      (gate.run reg s.count.asks inv.toolName inv s.cancel s.disk).1 after := by
  unfold executions at member
  unfold Tools.Gate.run
  split at member
  · next tool permitted =>
      rw [permitted]
      exact ⟨_, _, _, List.mem_singleton.mp member⟩
  · exact absurd member List.not_mem_nil

theorem Dispatched.observed {reg : Tools.ToolRegistry} {gate : Tools.Gate}
    {call : ToolCallDone} {outcome : ToolOutcome} {s s' : Sys P}
    (dispatched : Dispatched reg gate call s outcome s') :
    (Heard s'.log → Heard s.log) ∧
    (ToolCanceled s'.log → ToolCanceled s.log ∨ outcome.result.status = .canceled) := by
  obtain ⟨rules, named, log⟩ := dispatched.log
  rw [log]
  constructor
  · rintro ⟨site, inner, member⟩
    simp only [List.mem_append, List.mem_cons] at member
    rcases member with inRules | executed | impossible | earlier
    · cases named _ inRules
    · obtain ⟨_, _, _, impossible⟩ := executions_result executed
      cases impossible
    · cases impossible
    · exact ⟨site, inner, earlier⟩
  · rintro ⟨spec, inv, before, result, after, member, status⟩
    simp only [List.mem_append, List.mem_cons] at member
    rcases member with inRules | executed | impossible | earlier
    · cases named _ inRules
    · obtain ⟨_, _, _, same⟩ := executions_result executed
      cases same
      exact .inr (dispatched.result ▸ status)
    · cases impossible
    · exact .inl ⟨spec, inv, before, result, after, earlier, status⟩

theorem runTool_observed {call : ToolCallDone} {E : ε → Sys P → Prop} {s : Sys P}
    (tooling : Tooling s.session.state) :
    wp (runTool env call) (fun outcome s' => (Heard s'.log → Heard s.log) ∧
      (ToolCanceled s'.log → ToolCanceled s.log ∨ outcome.result.status = .canceled)) E s := by
  refine wp_runTool env tooling ?_ ?_ ?_
  · intro outcome s' refused
    constructor
    · intro now
      have early := now.earlier refused.log fun e check => by cases e <;> trivial
      exact early.tail trivial
    · intro now
      have early := now.earlier refused.log fun e check => by cases e <;> trivial
      exact .inl (early.tail trivial)
  · intro reg gate tool outcome s' _ _ _ _ dispatched
    obtain ⟨heard, canceled⟩ := dispatched.observed
    exact ⟨fun now => (heard now).tail trivial,
      fun now => (canceled now).imp (fun then_ => then_.tail trivial) id⟩
  · intro reg gate checkers tool prop s₁ outcome s' _ _ _ _ _ cleared dispatched
    obtain ⟨heard, canceled⟩ := dispatched.observed
    obtain ⟨runs, early, before, after, -⟩ := cleared.log
    refine ⟨fun now => ?_, fun now => (canceled now).imp (fun then_ => ?_) id⟩
    · have gated := (heard now).earlier after fun _ => unheeding_of_moveEv
      have begun := (gated.tail trivial).earlier before fun _ => unheeding_of_moveEv
      exact begun.tail trivial
    · have gated := then_.earlier after fun _ => idle_of_moveEv
      have begun := (gated.tail trivial).earlier before fun _ => idle_of_moveEv
      exact begun.tail trivial

/-- What the calls of a reply do with the flag. -/
structure Noticed (s : Sys P) : Prop where
  heard : Heard s.log → s.cancel = true ∧ s.abortedByFeedback = false
  canceled : ToolCanceled s.log → s.result.ec.code = .eCancelled

theorem toolLoop_noticed (calls : List ToolCallDone) {E : ε → Sys P → Prop} {s : Sys P}
    (tooling : Tooling s.session.state) (unheard : ¬Heard s.log)
    (uncanceled : ¬ToolCanceled s.log) (going : s.abortedByFeedback = false) :
    wp (toolLoop env calls) (fun _ => Noticed) E s := by
  refine wp_toolLoop env (I := fun _ s' => Tooling s'.session.state ∧ ¬Heard s'.log ∧
    ¬ToolCanceled s'.log ∧ s'.abortedByFeedback = false) ?_ ?_ ?_ calls s
    ⟨tooling, unheard, uncanceled, going⟩
  · rintro s' ⟨-, unheard, uncanceled, -⟩
    exact ⟨fun heard => absurd heard unheard, fun canceled => absurd canceled uncanceled⟩
  · rintro call rest s' ⟨-, -, uncanceled, going⟩ _ s'' books _ cancel log
    refine ⟨fun _ => ⟨cancel, (congrArg Books.abortedByFeedback books).trans going⟩, ?_⟩
    rw [log]
    intro now
    exact absurd ((now.tail trivial).tail trivial) uncanceled
  · rintro call rest s' ⟨tooling, unheard, uncanceled, -⟩ _ s₁ books state log
    have tooling₁ : Tooling s₁.session.state := state.symm ▸ tooling
    have unheard₁ : ¬Heard s₁.log := by
      rw [log]
      exact fun now => unheard (now.tail fun _ => rfl)
    have uncanceled₁ : ¬ToolCanceled s₁.log := by
      rw [log]
      exact fun now => uncanceled (now.tail trivial)
    refine wp_mono (wp_and (runTool_spec env (E := E) tooling₁)
      (runTool_observed env (E := E) tooling₁)) (fun outcome s₂ ran => ?_)
      (fun _ _ exited => exited.1)
    intro s₃ answered
    obtain ⟨⟨_, tooling₂, _⟩, heard, canceled⟩ := ran
    have unheard₃ : ¬Heard s₃.log := answered.log.symm ▸ fun now => unheard₁ (heard now)
    have uncanceled₃ (other : outcome.result.status ≠ .canceled) : ¬ToolCanceled s₃.log :=
      answered.log.symm ▸ fun now => (canceled now).elim uncanceled₁ other
    have dropUnheard : ¬Heard (.dropped rest :: s₃.log) :=
      fun now => unheard₃ (now.tail trivial)
    refine ⟨fun _ => ⟨fun now => absurd now dropUnheard, fun _ => rfl⟩, fun other _ => ?_,
      fun other clear => ⟨answered.state.symm ▸ tooling₂, unheard₃, uncanceled₃ other, clear⟩⟩
    exact ⟨fun now => absurd now dropUnheard,
      fun now => absurd (now.tail trivial) (uncanceled₃ other)⟩

/-! ## Rounds -/

/-- The flag was found set, or a tool found it. -/
def Observed (log : List Ev) : Prop := Heard log ∨ ToolCanceled log

/-- An entry that neither ends the task nor finds the flag set at the top of a round. -/
def Plain : Ev → Prop
  | .emit event => event.phase ≠ str "done"
  | .lesson _ _ => False
  | .poll site seen => site = .roundTop → seen = false
  | _ => True

/-- An entry without any bearing on cancellation. -/
structure Innocent (e : Ev) : Prop where
  plain : Plain e
  unheeding : Unheeding e
  idle : Idle e

/-- A log in which nothing final was said and the flag was not observed. -/
structure Clean (log : List Ev) : Prop where
  plain : ∀ e ∈ log, Plain e
  unheard : ¬Heard log
  uncanceled : ¬ToolCanceled log

theorem plain_extend {A : Ev → Prop} {past now : List Ev} (ext : Extends A past now)
    (new : ∀ e, A e → Plain e) (plain : ∀ e ∈ past, Plain e) : ∀ e ∈ now, Plain e := by
  intro e member
  rcases ext.mem_or member with inPast | inNew
  · exact plain e inPast
  · exact new e inNew

theorem Clean.extend {A : Ev → Prop} {past now : List Ev} (clean : Clean past)
    (ext : Extends A past now) (innocent : ∀ e, A e → Innocent e) : Clean now where
  plain := plain_extend ext (fun e new => (innocent e new).plain) clean.plain
  unheard := fun heard =>
    clean.unheard (heard.earlier ext fun e new => (innocent e new).unheeding)
  uncanceled := fun canceled =>
    clean.uncanceled (canceled.earlier ext fun e new => (innocent e new).idle)

theorem Clean.cons {e : Ev} {log : List Ev} (clean : Clean log) (innocent : Innocent e) :
    Clean (e :: log) :=
  clean.extend (.single innocent log) fun _ class_ => class_

theorem not_top_of_plain {log : List Ev} (plain : ∀ e ∈ log, Plain e) :
    .poll .roundTop true ∉ log := by
  intro member
  have missed : true = false := plain _ member rfl
  cases missed

theorem innocent_of_moveEv {e : Ev} (move : MoveEv e) : Innocent e := by
  cases e <;> simp only [MoveEv] at move
  case setState => exact ⟨trivial, trivial, trivial⟩
  case emit => exact ⟨move.1, trivial, trivial⟩

theorem innocent_of_frontEv {tools : List ToolSpec} {e : Ev} (front : FrontEv tools e) :
    Innocent e := by
  cases e <;> simp only [FrontEv, MoveEv] at front
  case poll => exact ⟨fun _ => front.2, fun _ => front.2, trivial⟩
  case plan => exact ⟨trivial, trivial, trivial⟩
  case setState => exact ⟨trivial, trivial, trivial⟩
  case emit => exact ⟨front.1, trivial, trivial⟩

theorem innocent_of_checkpoint {state : AgentState} {e : Ev}
    (reports : Reports "checkpoint" state e) : Innocent e :=
  innocent_of_moveEv (moveEv_of_reports (by decide) (expected_of_none (by decide)) reports)

theorem plain_of_netEv {msgs : List Message} {used : UInt64} {tools : List ToolSpec} {e : Ev}
    (net : NetEv msgs used tools e) : Plain e := by
  cases e <;> try trivial
  case poll site seen =>
      rintro rfl
      cases net

theorem plain_of_toolEv {e : Ev} (inTool : ToolEv e) : Plain e := by
  cases e <;> try trivial
  case poll site seen =>
      rintro rfl
      cases inTool
  case emit => exact inTool.1

/-- A drive between two rounds: nothing final has been said, and a flag that was found set
is still set. -/
structure Alert (s : Sys P) : Prop where
  plain : ∀ e ∈ s.log, Plain e
  remembered : Remembered s
  uncanceled : ¬ToolCanceled s.log
  aborted : s.abortedByFeedback = false

/-- While the flag is clear it has not been observed. -/
theorem Alert.clean {s : Sys P} (alert : Alert s) (clear : s.cancel = false) : Clean s.log where
  plain := alert.plain
  unheard := fun heard => by
    rw [alert.remembered heard] at clear
    cases clear
  uncanceled := alert.uncanceled

/-- How the rounds ended: at the top of a round, where no error is set, or elsewhere, where
an observed flag makes the result cancelled. -/
inductive Verdict (s : Sys P) : Prop
  | atTop (found : .poll .roundTop true ∈ s.log) (ok : s.result.ec.code = .ok)
  | elsewhere (clear : .poll .roundTop true ∉ s.log)
      (obeyed : Observed s.log → s.result.ec.code = .eCancelled ∧ ∀ e ∈ s.log, Plain e)

theorem Clean.unobserved {log : List Ev} (clean : Clean log) : ¬Observed log :=
  fun observed => observed.elim clean.unheard clean.uncanceled

theorem verdict_of_clean {s : Sys P} (clean : Clean s.log) : Verdict s :=
  .elsewhere (not_top_of_plain clean.plain) fun observed => absurd observed clean.unobserved

/-- The end of a task that was concluded. -/
theorem verdict_of_concluded {s s' : Sys P} (calm : Calm EndEv s s') (clean : Clean s.log) :
    Verdict s' := by
  refine .elsewhere (fun member => ?_) fun observed => absurd observed ?_
  · rcases calm.log.mem_or member with earlier | new
    · exact not_top_of_plain clean.plain earlier
    · exact new
  · rintro (heard | canceled)
    · exact clean.unheard (heard.earlier calm.log fun e ending => by cases e <;> trivial)
    · exact clean.uncanceled (canceled.earlier calm.log fun e ending => by cases e <;> trivial)

/-- The tools of a round, from a clean log. -/
theorem tools_alert (calls : List ToolCallDone) {s : Sys P} (toolPhase : s.session.state = .toolPhase)
    (clean : Clean s.log) (success : s.result.ec = .success) (going : s.abortedByFeedback = false) :
    wp (toolLoop env calls)
      (fun _ s' => ∀ s₁, Quiet (Reports "checkpoint") s' s₁ →
        AfterTools (fun _ => Alert) (fun _ => Verdict) s₁) (fun (_ : Unit) => Verdict) s := by
  refine wp_mono (wp_and
    (toolLoop_spec env calls (E := fun _ => Verdict) (.inl toolPhase) success)
    (toolLoop_noticed env calls (E := fun _ => Verdict) (.inl toolPhase) clean.unheard
      clean.uncanceled going)) (fun _ s₁ post => ?_) (fun _ _ failed => failed.1)
  obtain ⟨worked, noticed⟩ := post
  intro s₂ quiet
  have plain := plain_extend quiet.log (fun _ reports => (innocent_of_checkpoint reports).plain)
    (plain_extend worked.log (fun _ => plain_of_toolEv) clean.plain)
  have heard₂ (heard : Heard s₂.log) : s₂.cancel = true ∧ s₂.abortedByFeedback = false := by
    obtain ⟨set, clear⟩ := noticed.heard
      (heard.earlier quiet.log fun _ reports => (innocent_of_checkpoint reports).unheeding)
    exact ⟨quiet.cancel set, (congrArg Books.abortedByFeedback quiet.books).trans clear⟩
  have canceled₂ (canceled : ToolCanceled s₂.log) : s₂.result.ec.code = .eCancelled := by
    have same : s₂.result.ec = s₁.result.ec :=
      congrArg (DriveResult.ec ∘ Books.result) quiet.books
    rw [same]
    exact noticed.canceled
      (canceled.earlier quiet.log fun _ reports => (innocent_of_checkpoint reports).idle)
  refine ⟨fun isCancelled => ?_, fun other aborted => ?_, fun other clear => ?_⟩
  · exact .elsewhere (not_top_of_plain plain) fun _ => ⟨isCancelled, plain⟩
  · -- feedback ends the loop before the flag is looked at again
    refine verdict_of_clean ⟨plain, fun heard => ?_, fun canceled => other (canceled₂ canceled)⟩
    have unset := (heard₂ heard).2
    rw [aborted] at unset
    cases unset
  · exact ⟨plain, fun heard => (heard₂ heard).1, fun canceled => other (canceled₂ canceled), clear⟩

/-- **One round** ends alert, or with a verdict. -/
theorem round_alert (plan : IntentPlan) {s : Sys P} (going : Going s) (alert : Alert s) :
    wp (round env plan) (fun _ => Alert) (fun _ => Verdict) s := by
  refine wp_round env going.resting ?_ ?_ ?_
  · intro _ s' books _ log
    refine .atTop (log ▸ List.mem_cons_self ..) ?_
    have same : s'.result.ec = s.result.ec := congrArg (DriveResult.ec ∘ Books.result) books
    rw [same, going.ec]
    rfl
  · intro clear s' e prepared
    have clean : Clean s'.log :=
      (alert.clean clear).extend prepared.calm.log fun _ => innocent_of_frontEv
    exact verdict_of_clean clean
  · intro clear s₁ budget prepared _ _
    have clean₁ := (alert.clean clear).extend prepared.calm.log fun _ => innocent_of_frontEv
    have idle {s₂ : Sys P} (called : Called (toolsetFor plan env.opts.tools) (maxAttempts env) s₁ s₂) :
        (∀ e ∈ s₂.log, Plain e) ∧ ¬ToolCanceled s₂.log :=
      ⟨plain_extend called.calm.log (fun _ => plain_of_netEv) clean₁.plain,
        fun canceled => clean₁.uncanceled
          (canceled.earlier called.calm.log fun e net => by cases e <;> trivial)⟩
    refine wp_mono (wp_and (oneRound_spec env _ budget (.inl prepared.state))
      (oneRound_unheard env _ budget s₁ clean₁.unheard))
      (fun _ s₂ post => ?_) (fun e s₂ post => ?_)
    · obtain ⟨⟨called, streaming⟩, unheard⟩ := post
      obtain ⟨plain, uncanceled⟩ := idle called
      have clean₂ : Clean (s₂.replied env).log :=
        Clean.cons ⟨plain, unheard, uncanceled⟩ ⟨trivial, trivial, trivial⟩
      refine wp_settleReply env streaming ?_ ?_ ?_
      · intro _
        exact verdict_of_clean (clean₂.cons ⟨trivial, trivial, trivial⟩)
      · intro _ s₃ calm _
        exact verdict_of_concluded calm clean₂
      · intro s₃ calm toolPhase
        have books : s₃.books = (s₂.replied env).books := calm.books
        have success : s₃.result.ec = .success := by
          rw [calm.result]
          show s₂.result.ec = .success
          rw [called.calm.result, prepared.calm.result, going.ec]
        have unaborted : s₃.abortedByFeedback = false :=
          (congrArg Books.abortedByFeedback books).trans
            ((congrArg Books.abortedByFeedback called.calm.books).trans
              ((congrArg Books.abortedByFeedback prepared.calm.books).trans alert.aborted))
        exact tools_alert env _ toolPhase
          (clean₂.extend calm.log fun _ => innocent_of_moveEv) success unaborted
    · obtain ⟨called, told⟩ := post
      obtain ⟨plain, uncanceled⟩ := idle called
      exact .elsewhere (not_top_of_plain plain) fun observed =>
        ⟨told (observed.resolve_right uncanceled), plain⟩

/-! ## Drives -/

/-- The end of a drive adds nothing to what was observed. -/
theorem observed_of_finished {s s' : Sys P} (finished : Finished s s')
    (observed : Observed s'.log) : Observed s.log := by
  rcases observed with heard | canceled
  · exact .inl (heard.earlier finished.log fun e final => by cases e <;> trivial)
  · exact .inr (canceled.earlier finished.log fun e final => by cases e <;> trivial)

/-- The drive was reported and remembered as cancelled, and as nothing else. -/
structure EndedCancelled (r : DriveResult) (s : Sys P) : Prop where
  ec : r.ec.code = .eCancelled
  state : s.session.state = .cancelled
  notDone : ∀ event, .emit event ∈ s.log → event.phase ≠ str "done"
  noLesson : ∀ summary intent, .lesson summary intent ∉ s.log

theorem Verdict.finish {s s' : Sys P} (ended : Over s) (verdict : Verdict s)
    (finished : Finished s s') (observed : Observed s'.log) :
    EndedCancelled s'.result s' ↔ .poll .roundTop true ∉ s'.log := by
  cases verdict with
  | atTop found ok =>
      refine ⟨fun ended => ?_, fun absent => absurd (finished.log.mem found) absent⟩
      have code := ended.ec
      rw [finished.ec, ok] at code
      cases code
  | elsewhere clear obeyed =>
      obtain ⟨cancelled, plain⟩ := obeyed (observed_of_finished finished observed)
      have still : ∀ e ∈ s'.log, Plain e := by
        refine plain_extend finished.log (fun e final => ?_) plain
        rw [cancelled] at final
        cases e <;> try trivial
        case emit =>
            rcases final with same | same <;> rw [Plain, same] <;> decide
      refine ⟨fun _ => not_top_of_plain still, fun _ => ⟨?_, ?_, ?_, ?_⟩⟩
      · rw [finished.ec]
        exact cancelled
      · rw [(ended.finish finished).1, finished.ec]
        exact (ending_cancelled _).mpr cancelled
      · intro event member
        exact still _ member
      · intro summary intent member
        exact still _ member

theorem clean_reset (s : Sys P) : Clean s.opened.reset.log := by
  have empty : Clean [] :=
    ⟨fun _ member => absurd member List.not_mem_nil,
      fun ⟨_, _, member⟩ => absurd member List.not_mem_nil,
      fun ⟨_, _, _, _, _, member, _⟩ => absurd member List.not_mem_nil⟩
  unfold Sys.reset
  split
  · exact empty.cons ⟨trivial, trivial, trivial⟩
  · exact empty

/-- **A drive that observes the flag ends as cancelled, unless it finds it at the top of a
round.**  Exactly then is the result cancelled and the state too, with no done event and no
lesson. -/
theorem drive_ends_cancelled_iff (fuel : Nat) (input : Bytes) (s : Sys P) (r : DriveResult)
    (returned : (drive env fuel input s).1 = some r)
    (observed : Observed (drive env fuel input s).2.log) :
    EndedCancelled r (drive env fuel input s).2 ↔
      .poll .roundTop true ∉ (drive env fuel input s).2.log := by
  refine drive_rule env (I := fun s' => Going s' ∧ Alert s') (E := fun s' => Over s' ∧ Verdict s')
    (F := fun returned s' => ∀ r, returned = some r → Observed s'.log →
      (EndedCancelled r s' ↔ .poll .roundTop true ∉ s'.log)) ?_ ?_ ?_ ?_ fuel r returned observed
  · have clean := clean_reset s
    refine wp_beginDrive env ?_ ?_ ?_
    · intro _ r _ observed
      exact absurd observed clean.unobserved
    · intro _ _ s' _ _ log r _ observed
      rw [log] at observed
      rcases observed with heard | canceled
      · exact absurd (heard.tail fun inner => absurd rfl inner) clean.unheard
      · exact absurd (canceled.tail trivial) clean.uncanceled
    · intro idle _ s' begun
      have started : Clean s'.log := clean.extend begun.log fun e start => by
        cases e <;> try exact innocent_of_moveEv start
        case poll => exact ⟨fun _ => start.2, fun _ => start.2, trivial⟩
      exact ⟨rfl, begun_going env idle begun, started.plain,
        fun heard => absurd heard started.unheard, started.uncanceled, begun.aborted⟩
  · intro s' held
    exact wp_and (round_going env _ held.1) (round_alert env _ held.1 held.2)
  · intro s' _ r impossible
    cases impossible
  · intro s' ended
    refine wp_mono (finishDrive_spec env (E := fun _ _ => False) _) (fun _ s'' finished => ?_)
      (fun _ _ impossible => impossible)
    intro r same observed
    cases same
    exact ended.2.finish ended.1 finished observed

/-- The host cancels while the provider is being called. -/
theorem drive_ends_cancelled_in_call :
    EndedCancelled ⟨⟨.eCancelled, 0⟩, [], [], [], 0, 0⟩
      (drive (scriptedEnv .empty [] [2]) 3 (str "explain x") scriptedStart).2 :=
  (drive_ends_cancelled_iff (scriptedEnv .empty [] [2]) 3 (str "explain x") scriptedStart _
    (by decide +kernel) (.inl (by decide +kernel))).mpr (by decide +kernel)

/-- The host cancels while a tool is about to run: the drive ends as done. -/
theorem drive_done_after_cancel_between_tools :
    ¬ ∀ r, (drive (scriptedEnv .empty [callReply "c1" "look" (.object [])] [7]) 3
        (str "explain x") scriptedStart).1 = some r →
      Observed (drive (scriptedEnv .empty [callReply "c1" "look" (.object [])] [7]) 3
        (str "explain x") scriptedStart).2.log →
      EndedCancelled r (drive (scriptedEnv .empty [callReply "c1" "look" (.object [])] [7]) 3
        (str "explain x") scriptedStart).2 := by
  intro claim
  have ended := claim ⟨.success, [], [], [], 7, 1⟩ (by decide +kernel) (.inl (by decide +kernel))
  exact absurd ended.ec (by decide)

end Opencodepp.Agent
