import Opencodepp.Agent.Lifecycle
import Opencodepp.Agent.Scripted

/-!
# Repeated feedback

A task is given up when the gate fails in the same place a second time.  The place is what the
key of a failure holds: its stage, file and line, and the key holds nothing less
(`feedbackKey_injective`).  It does not hold what was wrong there, so that a task is given up
as well when the second failure is another one.
-/

set_option autoImplicit false

namespace Opencodepp.Agent

open Opencodepp.Core
open Opencodepp.Library
open Opencodepp.Library.Program
open Opencodepp.Library.Trace
open Opencodepp.Provider
open Opencodepp.Verify

variable {P : Provider} {ε : Type} (env : Env)

/-! ## Keys -/

/-- Two failures in the same place. -/
structure SamePlace (first second : GateResult) : Prop where
  stage : first.stage = second.stage
  file : first.file = second.file
  line : first.line = second.line

theorem colon_notMem_stageName (stage : Stage) : ch ':' ∉ stageName stage := by
  cases stage <;> decide

theorem colon_notMem_decimal (n : Nat) : ch ':' ∉ decimal n := by
  intro member
  exact absurd (isDigit_of_mem_decimal member) (by decide)

theorem stageName_injective {first second : Stage} (same : stageName first = stageName second) :
    first = second := by
  revert same
  cases first <;> cases second <;> decide

/-- A text splits in only one way at its first colon. -/
theorem append_colon_cancel : ∀ {before before' after after' : Bytes}, ch ':' ∉ before →
    ch ':' ∉ before' → before ++ ch ':' :: after = before' ++ ch ':' :: after' →
      before = before' ∧ after = after' := by
  intro before
  induction before with
  | nil =>
      intro before' after after' _ clean' same
      cases before' with
      | nil => exact ⟨rfl, (List.cons.inj same).2⟩
      | cons b rest =>
          have first : ch ':' = b := (List.cons.inj same).1
          exact absurd (List.mem_cons_self ..) (first ▸ clean')
  | cons b rest inductionHypothesis =>
      intro before' after after' clean clean' same
      cases before' with
      | nil =>
          have first : b = ch ':' := (List.cons.inj same).1
          exact absurd (List.mem_cons_self ..) (first ▸ clean)
      | cons b' rest' =>
          obtain ⟨first, others⟩ := List.cons.inj same
          obtain ⟨sameRest, sameAfter⟩ := inductionHypothesis
            (fun member => clean (List.mem_cons_of_mem _ member))
            (fun member => clean' (List.mem_cons_of_mem _ member)) others
          exact ⟨by rw [first, sameRest], sameAfter⟩

/-- **The key holds the place.** -/
theorem feedbackKey_injective {first second : GateResult}
    (same : feedbackKey first = feedbackKey second) : SamePlace first second := by
  have colon : str ":" = [ch ':'] := by decide
  have shape (r : GateResult) :
      feedbackKey r = stageName r.stage ++ ch ':' :: (r.file ++ ch ':' :: decimal r.line) := by
    simp [feedbackKey, colon]
  rw [shape, shape] at same
  obtain ⟨stage, rest⟩ := append_colon_cancel (colon_notMem_stageName _)
    (colon_notMem_stageName _) same
  -- The line stands after the last colon, so the rest is read from its end.
  have reversed : (decimal first.line).reverse ++ ch ':' :: first.file.reverse =
      (decimal second.line).reverse ++ ch ':' :: second.file.reverse := by
    simpa using congrArg List.reverse rest
  have clean (n : Nat) : ch ':' ∉ (decimal n).reverse :=
    fun member => colon_notMem_decimal n (List.mem_reverse.mp member)
  obtain ⟨line, file⟩ := append_colon_cancel (clean _) (clean _) reversed
  exact ⟨stageName_injective stage, List.reverse_injective file,
    decimal_injective (List.reverse_injective line)⟩

/-! ## Repetitions -/

/-- The failure a run of the gate is blamed on. -/
def firstFailure (results : List GateResult) : Option GateResult := results.find? (!·.pass)

/-- A run of the gate with a failure. -/
def FailedWith (e : Ev) (fail : GateResult) : Prop :=
  ∃ prop results, e = .gate prop results ∧ firstFailure results = some fail

/-- The gate failed twice in the same place. -/
def Repeats (log : List Ev) : Prop :=
  ∃ later e past e' fail fail', log = later ++ e :: past ∧ e' ∈ past ∧ FailedWith e fail ∧
    FailedWith e' fail' ∧ SamePlace fail fail'

theorem Repeats.extend {past now : List Ev} (repeats : Repeats past)
    (ext : Extends (fun _ => True) past now) : Repeats now := by
  obtain ⟨later, e, early, e', fail, fail', rfl, rest⟩ := repeats
  obtain ⟨new, rfl, -⟩ := ext
  exact ⟨new ++ later, e, early, e', fail, fail', (List.append_assoc ..).symm, rest⟩

/-- What the agent remembers of its failures is in the log. -/
structure Recalls (s : Sys P) : Prop where
  seen : ∀ key ∈ s.feedbackSeen, ∃ e ∈ s.log, ∃ fail, FailedWith e fail ∧ feedbackKey fail = key
  aborted : s.abortedByFeedback = true → Repeats s.log

/-- A step that judges nothing. -/
structure Unjudged (s s' : Sys P) : Prop where
  seen : s'.feedbackSeen = s.feedbackSeen
  aborted : s'.abortedByFeedback = s.abortedByFeedback
  log : Extends (fun _ => True) s.log s'.log

theorem Unjudged.of_books {s s' : Sys P} (books : s'.books = s.books) {A : Ev → Prop}
    (log : Extends A s.log s'.log) : Unjudged s s' :=
  ⟨congrArg Books.feedbackSeen books, congrArg Books.abortedByFeedback books,
    log.mono fun _ _ => trivial⟩

theorem Recalls.unjudged {s s' : Sys P} (recalls : Recalls s) (unjudged : Unjudged s s') :
    Recalls s' := by
  refine ⟨fun key member => ?_, fun set => ?_⟩
  · obtain ⟨e, logged, failed⟩ := recalls.seen key (unjudged.seen ▸ member)
    exact ⟨e, unjudged.log.mem logged, failed⟩
  · exact (recalls.aborted (unjudged.aborted ▸ set)).extend unjudged.log

/-- Memory is kept from the first state to the second. -/
def KeepsRecall (s s' : Sys P) : Prop := Recalls s → Recalls s'

theorem KeepsRecall.framing : Framing (KeepsRecall (P := P)) where
  refl _ := fun recalls => recalls
  trans first second := fun recalls => second (first recalls)

/-- A step that changes neither the memory nor removes entries keeps it. -/
theorem recalling_update {f : Sys P → Sys P} (seen : ∀ s, (f s).feedbackSeen = s.feedbackSeen)
    (aborted : ∀ s, (f s).abortedByFeedback = s.abortedByFeedback)
    (log : ∀ s, Extends (fun _ => True) s.log (f s).log) :
    Within KeepsRecall (.update f : Program (Sys P) ε Unit) :=
  fun s recalls => recalls.unjudged ⟨seen s, aborted s, log s⟩

theorem recalling_record (ev : Ev) :
    Within KeepsRecall (record ev : Program (Sys P) ε Unit) :=
  fun s recalls => recalls.unjudged ⟨rfl, rfl, .single trivial s.log⟩

theorem recalling_emit (phase : String) (detail : Bytes) (status : Nat) :
    Within KeepsRecall (emit env phase detail status : Program (Sys P) ε Unit) := by
  intro s recalls
  have quiet : Quiet (fun _ _ => True) s (emit env phase detail status s : Except ε Unit × Sys P).2 :=
    quiet_emit env (fun _ _ _ => trivial) s
  exact recalls.unjudged (.of_books quiet.books quiet.log)

theorem recalling_enter (target : AgentState) (phase : String) (detail : Bytes) (status : Nat) :
    Within KeepsRecall (enter env target phase detail status : Program (Sys P) ε Unit) :=
  .bind KeepsRecall.framing
    (recalling_update (fun _ => rfl) (fun _ => rfl) fun s => .single trivial s.log)
    fun _ => recalling_emit env phase detail status

theorem recalling_checkpoint : Within KeepsRecall (checkpoint env : Program (Sys P) ε Unit) :=
  .onlyIf KeepsRecall.framing (recalling_emit env _ _ _)

theorem recalling_pollCancel (site : PollSite) :
    Within KeepsRecall (pollCancel env site : Program (Sys P) ε Bool) :=
  fun s recalls => recalls.unjudged ⟨rfl, rfl, .single trivial s.log⟩

theorem recalling_appendMessage (role : Msg.Role) (model : Bytes) (parts : List Msg.Part) :
    Within KeepsRecall (appendMessage env role model parts : Program (Sys P) ε Unit) :=
  recalling_update (fun _ => rfl) (fun _ => rfl) fun s => .refl _ s.log

theorem recalling_breakWith {α : Type} (e : Failure) :
    Within KeepsRecall (breakWith e : Program (Sys P) Unit α) :=
  .bind KeepsRecall.framing
    (recalling_update (fun _ => rfl) (fun _ => rfl) fun s => .refl _ s.log)
    fun _ => .stop KeepsRecall.framing ()

/-! ## A call -/

theorem recalling_permissionRun (reg : Tools.ToolRegistry) (gate : Tools.Gate)
    (inv : Tools.Invocation) :
    Within KeepsRecall (permissionRun reg gate inv : Program (Sys P) ε Tools.ToolResult) :=
  fun s recalls => recalls.unjudged ⟨rfl, rfl,
    ⟨executions reg gate inv s ++ [.permission inv], by simp [permissionRun], fun _ _ => trivial⟩⟩

theorem recalling_writeRepoRule (name : Bytes) :
    Within KeepsRecall (writeRepoRule env name : Program (Sys P) ε Unit) :=
  .onlyIf KeepsRecall.framing (recalling_record _)

theorem recalling_applyWrite (reg : Tools.ToolRegistry) (gate : Tools.Gate) (call : ToolCallDone)
    (prop : EditProposal) :
    Within KeepsRecall (applyWrite env reg gate call prop : Program (Sys P) ε ToolOutcome) := by
  refine .bind KeepsRecall.framing (recalling_enter env _ _ _ _) fun _ => ?_
  refine .bind KeepsRecall.framing (recalling_permissionRun reg gate _) fun r => ?_
  split
  · refine .bind KeepsRecall.framing ?_ fun _ => .pure KeepsRecall.framing _
    exact recalling_update (fun _ => rfl) (fun _ => rfl) fun s => .refl _ s.log
  · refine .bind KeepsRecall.framing ?_ fun _ => .pure KeepsRecall.framing _
    exact .onlyIf KeepsRecall.framing (recalling_writeRepoRule env _)
  · exact .pure KeepsRecall.framing _

theorem recalling_runPlainTool (reg : Tools.ToolRegistry) (gate : Tools.Gate)
    (call : ToolCallDone) :
    Within KeepsRecall (runPlainTool env reg gate call : Program (Sys P) ε ToolOutcome) := by
  refine .bind KeepsRecall.framing (recalling_permissionRun reg gate _) fun r => ?_
  refine .ite (.pure KeepsRecall.framing _) (.ite ?_ (.pure KeepsRecall.framing _))
  exact .bind KeepsRecall.framing (recalling_writeRepoRule env _)
    fun _ => .pure KeepsRecall.framing _

/-- **The failure that was just logged is remembered**, or is found to be a repetition. -/
theorem recalls_gateFeedback {prop : EditProposal} {results : List GateResult}
    {fail : GateResult} {s s₁ : Sys P} (recalls : Recalls s)
    (failed : firstFailure results = some fail) (seen : s₁.feedbackSeen = s.feedbackSeen)
    (aborted : s₁.abortedByFeedback = s.abortedByFeedback)
    (log : s₁.log = .gate prop results :: s.log) :
    Recalls (gateFeedback env fail s₁ : Except ε Bytes × Sys P).2 := by
  have judged : FailedWith (.gate prop results) fail := ⟨prop, results, rfl, failed⟩
  have recalls₁ : Recalls s₁ := recalls.unjudged ⟨seen, aborted, log ▸ .single trivial s.log⟩
  suffices memory : wp (gateFeedback env fail : Program (Sys P) ε Bytes)
      (fun _ => Recalls) (fun _ => Recalls) s₁ by
    unfold wp at memory
    rcases run : (gateFeedback env fail s₁ : Except ε Bytes × Sys P) with ⟨_ | _, _⟩ <;>
      rw [run] at memory <;> exact memory
  unfold gateFeedback
  rw [wp_bind]
  refine wp_emit env fun s₂ quiet => ?_
  have unjudged : Unjudged s₁ s₂ := .of_books quiet.books quiet.log
  have recalls₂ : Recalls s₂ := recalls₁.unjudged unjudged
  obtain ⟨new, logged, -⟩ := unjudged.log
  rw [log] at logged
  rw [wp_bind, wp_gets, wp_ite]
  refine ⟨fun known => ?_, fun _ => ?_⟩
  · have member : feedbackKey fail ∈ s.feedbackSeen := by
      rw [← seen, ← unjudged.seen]
      simpa using known
    obtain ⟨e', early, fail', failed', sameKey⟩ := recalls.seen _ member
    refine ⟨recalls₂.seen, fun _ => ?_⟩
    exact ⟨new, _, s.log, e', fail, fail', logged, early, judged, failed',
      feedbackKey_injective sameKey.symm⟩
  · refine ⟨fun key member => ?_, recalls₂.aborted⟩
    rcases List.mem_append.mp member with old | fresh
    · exact recalls₂.seen key old
    · refine ⟨.gate prop results, ?_, fail, judged, (List.mem_singleton.mp fresh).symm⟩
      show _ ∈ s₂.log
      rw [logged]
      simp

theorem recalling_runWriteTool (reg : Tools.ToolRegistry) (gate : Tools.Gate)
    (checkers : Checkers) (call : ToolCallDone) :
    Within KeepsRecall
      (runWriteTool env reg gate checkers call : Program (Sys P) ε ToolOutcome) := by
  refine .bind KeepsRecall.framing (recalling_enter env _ _ _ _) fun _ => ?_
  refine .bind KeepsRecall.framing ?_ fun proposed => ?_
  · exact fun s recalls => recalls.unjudged ⟨rfl, rfl, .refl _ s.log⟩
  · split
    · exact .pure KeepsRecall.framing _
    · next prop =>
        -- The gate and the feedback are one step: the memory holds again after both.
        intro s recalls
        let results := runAll checkers s.count.gateRuns env.opts.verifyCtx prop
        let s₁ : Sys P :=
          { s with count.gateRuns := s.count.gateRuns + 1, log := .gate prop results :: s.log }
        have judged : (gateRun env checkers prop : Program (Sys P) ε _) s = (.ok results, s₁) := rfl
        rw [bind_of_returns judged]
        cases failed : results.find? (!·.pass) with
        | some fail =>
            dsimp only
            rw [state_bind_pure]
            exact recalls_gateFeedback env recalls failed rfl rfl rfl
        | none =>
            have gated : Unjudged s s₁ := ⟨rfl, rfl, .single trivial s.log⟩
            exact recalling_applyWrite env reg gate call prop s₁ (recalls.unjudged gated)

theorem recalling_runTool (call : ToolCallDone) :
    Within KeepsRecall (runTool env call : Program (Sys P) ε ToolOutcome) := by
  refine .bind KeepsRecall.framing (recalling_record _) fun _ => ?_
  split
  · split
    · exact .pure KeepsRecall.framing _
    · exact .ite (recalling_runWriteTool env _ _ _ _) (recalling_runPlainTool env _ _ _)
  · exact .pure KeepsRecall.framing _

/-! ## Replies, rounds and drives -/

theorem recalling_answerCall (call : ToolCallDone) (outcome : ToolOutcome) :
    Within KeepsRecall (answerCall env call outcome : Program (Sys P) ε Unit) := by
  refine .ite (.bind KeepsRecall.framing ?_ fun _ => ?_) ?_
  · exact recalling_update (fun _ => rfl) (fun _ => rfl) fun s => .refl _ s.log
  · exact recalling_appendMessage env _ _ _
  · exact recalling_appendMessage env _ _ _

/-- The calls of a reply, by induction on them. -/
theorem recalling_toolLoop (calls : List ToolCallDone) :
    Within KeepsRecall (toolLoop env calls : Program (Sys P) ε Unit) := by
  induction calls with
  | nil => exact .pure KeepsRecall.framing ()
  | cons call rest inductionHypothesis =>
      refine .bind KeepsRecall.framing (recalling_pollCancel env _) fun seen => ?_
      refine .ite (recalling_record _) ?_
      refine .bind KeepsRecall.framing (recalling_runTool env call) fun outcome => ?_
      refine .bind KeepsRecall.framing (recalling_answerCall env call outcome) fun _ => ?_
      refine .bind KeepsRecall.framing (.gets KeepsRecall.framing _) fun aborted => ?_
      refine .ite (.bind KeepsRecall.framing ?_ fun _ => recalling_record _)
        (.ite (recalling_record _) inductionHypothesis)
      exact recalling_update (fun _ => rfl) (fun _ => rfl) fun s => .refl _ s.log

theorem recalling_toolRound (calls : List ToolCallDone) :
    Within KeepsRecall (toolRound env calls : Program (Sys P) Unit Unit) := by
  refine .bind KeepsRecall.framing (recalling_enter env _ _ _ _) fun _ => ?_
  refine .bind KeepsRecall.framing (recalling_toolLoop env calls) fun _ => ?_
  refine .bind KeepsRecall.framing (recalling_checkpoint env) fun _ => ?_
  refine .bind KeepsRecall.framing (.gets KeepsRecall.framing _) fun ec => ?_
  refine .bind KeepsRecall.framing (.stopIf KeepsRecall.framing _ _) fun _ => ?_
  refine .bind KeepsRecall.framing (.gets KeepsRecall.framing _) fun aborted => ?_
  exact .onlyIf KeepsRecall.framing (recalling_breakWith _)

theorem recalling_settleReply : Within KeepsRecall (settleReply env : Program (Sys P) Unit Unit) := by
  refine .bind KeepsRecall.framing ?_ fun reply => ?_
  · exact fun s recalls => recalls.unjudged ⟨rfl, rfl, .single trivial s.log⟩
  · refine .ite (.bind KeepsRecall.framing (recalling_record _) fun _ => recalling_breakWith _)
      (.ite ?_ (recalling_toolRound env _))
    refine .bind KeepsRecall.framing ?_ fun _ => ?_
    · exact recalling_update (fun _ => rfl) (fun _ => rfl) fun s => .refl _ s.log
    · exact .bind KeepsRecall.framing (recalling_enter env _ _ _ _)
        fun _ => .stop KeepsRecall.framing ()

theorem recalling_finishDrive (plan : IntentPlan) :
    Within KeepsRecall (finishDrive env plan : Program (Sys P) ε Unit) := by
  refine .bind KeepsRecall.framing (recalling_checkpoint env) fun _ => ?_
  refine .bind KeepsRecall.framing ?_ fun _ => ?_
  · exact recalling_update (fun _ => rfl) (fun _ => rfl) fun s => .refl _ s.log
  refine .bind KeepsRecall.framing (.gets KeepsRecall.framing _) fun ec => ?_
  refine .ite (recalling_enter env _ _ _ _) (.ite ?_ (recalling_enter env _ _ _ _))
  refine .bind KeepsRecall.framing (.gets KeepsRecall.framing _) fun state => ?_
  refine .bind KeepsRecall.framing
    (.onlyIf KeepsRecall.framing (recalling_enter env _ _ _ _)) fun _ => ?_
  refine .bind KeepsRecall.framing (.gets KeepsRecall.framing _) fun summary => ?_
  exact .onlyIf KeepsRecall.framing (recalling_record _)

/-- A drive starts without memories. -/
theorem recalls_begun (input : Bytes) (s : Sys P) :
    wp (beginDrive env input) (fun _ => Recalls) (fun _ _ => True) s := by
  have begins : Within KeepsRecall (do
      enter env .preparing "intent" (str "classifying") 0
      appendUser env input
      pure (classifyIntent input) : Program (Sys P) Failure IntentPlan) :=
    .bind KeepsRecall.framing (recalling_enter env _ _ _ _) fun _ =>
      .bind KeepsRecall.framing (recalling_appendMessage env _ _ _) fun _ =>
        .pure KeepsRecall.framing _
  unfold beginDrive
  rw [wp_bind, wp_gets, wp_bind]
  refine wp_mono (Q := fun _ _ => True) (E := fun _ _ => True) ?_ (fun _ s₁ _ => ?_)
    (fun _ _ _ => trivial)
  · rw [wp_onlyIf]
    exact ⟨fun _ => trivial, fun _ => trivial⟩
  · rw [wp_bind, wp_gets, wp_bind, wp_stopIf]
    refine ⟨fun _ => trivial, fun _ => ?_⟩
    unfold checkCancel
    rw [wp_bind, wp_bind, wp_pollCancel, wp_stopIf]
    refine ⟨fun _ => trivial, fun _ => ?_⟩
    rw [wp_bind, wp_update]
    refine wp_mono (begins.wp _) (fun _ s₂ kept => kept ⟨?_, ?_⟩) (fun _ _ _ => trivial)
    · intro key member
      cases member
    · intro set
      cases set

/-- **One round** keeps the memory. -/
theorem round_recalls {plan : IntentPlan} {s : Sys P} (going : Going s) (recalls : Recalls s) :
    wp (round env plan) (fun _ => Recalls) (fun _ => Recalls) s := by
  refine wp_round env going.resting ?_ ?_ ?_
  · intro _ s' books _ log
    have polled : Extends (fun _ => True) s.log s'.log := by
      rw [log]
      exact .single trivial s.log
    exact recalls.unjudged (.of_books books polled)
  · intro _ s' e prepared
    have unjudged : Unjudged s s' := .of_books prepared.calm.books prepared.calm.log
    exact (recalls.unjudged unjudged).unjudged ⟨rfl, rfl, .refl _ _⟩
  · intro _ s₁ budget prepared _ _
    have recalls₁ : Recalls s₁ :=
      recalls.unjudged (.of_books prepared.calm.books prepared.calm.log)
    refine wp_mono (oneRound_spec env _ budget (.inl prepared.state))
      (fun _ s₂ answered => ?_) (fun e s₂ called => ?_)
    · have recalls₂ : Recalls s₂ :=
        recalls₁.unjudged (.of_books answered.1.calm.books answered.1.calm.log)
      exact wp_mono ((recalling_settleReply env).wp s₂) (fun _ _ kept => kept recalls₂)
        (fun _ _ kept => kept recalls₂)
    · have recalls₂ : Recalls s₂ :=
        recalls₁.unjudged (.of_books called.calm.books called.calm.log)
      exact recalls₂.unjudged ⟨rfl, rfl, .refl _ _⟩

/-- **A task is given up only after two failures in the same place**, in every drive. -/
theorem aborted_only_on_repetition (fuel : Nat) (input : Bytes) (s : Sys P) (r : DriveResult)
    (returned : (drive env fuel input s).1 = some r) (aborted : r.ec.code = .eAborted)
    (byFeedback : (drive env fuel input s).2.abortedByFeedback = true) :
    Repeats (drive env fuel input s).2.log := by
  suffices outcome : ∀ r, (drive env fuel input s).1 = some r → r.ec.code = .eAborted →
      (drive env fuel input s).2.abortedByFeedback = true →
        Repeats (drive env fuel input s).2.log from outcome r returned aborted byFeedback
  refine drive_rule env (I := fun s' => Going s' ∧ Recalls s') (E := Recalls)
    (F := fun returned s' => ∀ r, returned = some r → r.ec.code = .eAborted →
      s'.abortedByFeedback = true → Repeats s'.log) ?_ ?_ ?_ ?_ fuel
  · refine wp_mono (wp_and (Q := fun plan s' => plan = classifyIntent input ∧ Going s')
      (E := fun e _ => e.ec.code ≠ .eAborted) (wp_beginDrive env ?_ ?_ ?_)
      (recalls_begun env input _)) (fun _ _ begun => ⟨begun.1.1, begun.1.2, begun.2⟩) ?_
    · intro _
      decide
    · intro _ _ _ _ _ _
      decide
    · intro idle _ s' begun
      exact ⟨rfl, begun_going env idle begun⟩
    · rintro e s' ⟨other, -⟩ r same code
      cases same
      exact absurd code other
  · intro s' held
    exact wp_mono (wp_and (round_going env _ held.1) (round_recalls env held.1 held.2))
      (fun _ _ post => post) (fun _ _ post => post.2)
  · intro s' _ r none_
    cases none_
  · intro s' recalls
    refine wp_mono (wp_and (finishDrive_spec env (E := fun _ _ => False) _)
      ((recalling_finishDrive env _).wp s')) (fun _ s'' post => ?_) (fun _ _ post => post.1)
    intro r _ _ set
    exact (post.2 recalls).aborted set

/-! ## Two writes that fail -/

/-- A gate that objects to every content, in words of its own. -/
def quotingCheckers : Checkers :=
  { lenientCheckers with checkDiff := fun prop => [str "bad " ++ prop.afterContent] }

/-- A model that writes `x` to a file, and then another content to the same file. -/
def insistingEnv (second : String) : Env :=
  { scriptedEnv writeTools [callReply "c1" "file.write" (writeArgs "a" "x"),
      callReply "c2" "file.write" (writeArgs "a" second)] [] with
    opts :=
      { (scriptedEnv writeTools [] []).opts with verify := some quotingCheckers } }

/-- The drive of that model. -/
def insistingDrive (second : String) : Option DriveResult × Sys factory :=
  drive (insistingEnv second) 3 (str "fix it") scriptedStart

/-- The feedback of the failures in a log, newest first. -/
def failureTexts (log : List Ev) : List Bytes :=
  log.filterMap fun
    | .gate _ results => (firstFailure results).map gateFeedbackText
    | _ => none

theorem aborted_only_on_repetition_insisting :
    (insistingDrive "x").1.map (·.ec.code) = some .eAborted ∧
      (insistingDrive "x").2.abortedByFeedback = true ∧ Repeats (insistingDrive "x").2.log := by
  -- both are read off one evaluation of the drive
  obtain ⟨code, set⟩ : (insistingDrive "x").1.map (·.ec.code) = some .eAborted ∧
      (insistingDrive "x").2.abortedByFeedback = true := by decide +kernel
  refine ⟨code, set, ?_⟩
  obtain ⟨r, returned, aborted⟩ := Option.map_eq_some_iff.mp code
  unfold insistingDrive at returned set ⊢
  exact aborted_only_on_repetition (insistingEnv "x") 3 (str "fix it") scriptedStart r returned
    aborted set

/-- The task is given up although the two failures are different ones. -/
theorem aborted_on_different_failures :
    (insistingDrive "y").1.map (·.ec.code) = some .eAborted ∧
      (insistingDrive "y").2.abortedByFeedback = true ∧
      failureTexts (insistingDrive "y").2.log =
        [str "verify diff 'a': bad y", str "verify diff 'a': bad x"] ∧
      (failureTexts (insistingDrive "y").2.log).Nodup := by
  obtain ⟨code, set, texts⟩ : (insistingDrive "y").1.map (·.ec.code) = some .eAborted ∧
      (insistingDrive "y").2.abortedByFeedback = true ∧
      failureTexts (insistingDrive "y").2.log =
        [str "verify diff 'a': bad y", str "verify diff 'a': bad x"] := by decide +kernel
  refine ⟨code, set, texts, ?_⟩
  rw [texts]
  decide

end Opencodepp.Agent
