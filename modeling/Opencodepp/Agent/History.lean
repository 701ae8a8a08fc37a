import Opencodepp.Agent.Lifecycle
import Opencodepp.Library.Pairing
import Opencodepp.Tools.Write

/-!
# The history on the wire

What a provider request carries is the history of the session, not the plan the round has
assembled: a plan starts with the system message, and the history holds none.  In the
history every tool call is answered as long as the replies use new call ids and no call is
dropped; a dropped call stays unanswered in every later request of the session.
-/

set_option autoImplicit false

namespace Opencodepp.Agent

open Opencodepp.Core
open Opencodepp.Library
open Opencodepp.Library.Pairing
open Opencodepp.Library.Program
open Opencodepp.Library.Trace
open Opencodepp.Msg
open Opencodepp.Provider

variable {P : Provider} {ε : Type} (env : Env)

/-! ## Calls and results -/

/-- A call asks under its id, and a result answers it. -/
def toolProtocol : Protocol Part Bytes where
  asks
    | .toolCall call => some call.id
    | _ => none
  answers
    | .toolResult result => some result.callId
    | _ => none
  apart a k asks := by cases a <;> first | rfl | cases asks

/-- The parts of a history, in order. -/
def partsOf (msgs : List Message) : List Part := msgs.flatMap (·.parts)

/-- Every call has exactly one later result, and every result an earlier call. -/
def Answers (msgs : List Message) : Prop := Paired toolProtocol (partsOf msgs)

theorem partsOf_concat (msgs : List Message) (m : Message) :
    partsOf (msgs ++ [m]) = partsOf msgs ++ m.parts := by
  simp [partsOf]

/-- An entry after which the history can still be complete: a reply calls under new and
distinct ids, and no call is dropped. -/
def Tidy : Ev → Prop
  | .reply history acc => (acc.calls.map (·.id)).Nodup ∧
      ∀ call ∈ acc.calls, ¬Asked toolProtocol call.id (partsOf history)
  | .dropped calls => calls = []
  | _ => True

instance : DecidablePred Tidy
  | .reply history acc => inferInstanceAs (Decidable ((acc.calls.map (·.id)).Nodup ∧
      ∀ call ∈ acc.calls, ¬Asked toolProtocol call.id (partsOf history)))
  | .dropped calls => inferInstanceAs (Decidable (calls = []))
  | .poll _ _ | .setState _ _ | .emit _ | .plan _ _ | .attempt _ _ | .request _ _ | .toolBegin _
  | .gate _ _ | .permission _ | .execute _ _ _ _ _ | .lesson _ _ | .repoRule _ => .isTrue trivial

/-- The calls `open_` are all that is unanswered, as long as the log is tidy and the history
was complete to begin with, which is what `base` stands for. -/
def Open (base : Prop) (open_ : List ToolCallDone) (s : Sys P) : Prop :=
  base → (∀ e ∈ s.log, Tidy e) → (open_.map (·.id)).Nodup ∧
    Pending toolProtocol (open_.map (·.id)) (partsOf s.session.messages)

section Open

variable {base : Prop}

theorem Open.extend {A : Ev → Prop} {open_ : List ToolCallDone} {s s' : Sys P}
    (held : Open base open_ s) (messages : s'.session.messages = s.session.messages)
    (ext : Extends A s.log s'.log) : Open base open_ s' := by
  intro begun tidy
  rw [messages]
  exact held begun fun e member => tidy e (ext.mem member)

/-- The user's turn asks and answers nothing. -/
theorem Open.user {A : Ev → Prop} {s s' : Sys P} {id created text : _}
    (held : Open base [] s) (ext : Extends A s.log s'.log)
    (messages : s'.session.messages =
      s.session.messages ++ [⟨id, env.session.id, .user, [], [.text text], created⟩]) :
    Open base [] s' := by
  intro begun tidy
  have before := (held begun fun e member => tidy e (ext.mem member)).2
  refine ⟨List.nodup_nil, ?_⟩
  rw [messages, partsOf_concat]
  exact before.inert rfl rfl

/-- A reply opens its calls. -/
theorem Open.replied {s : Sys P} (held : Open base [] s) : Open base s.acc.calls (s.replied env) := by
  intro begun tidy
  obtain ⟨head, tail⟩ := List.forall_mem_cons.mp tidy
  obtain ⟨distinct, fresh⟩ := head
  have before := (held begun tail).2
  refine ⟨distinct, ?_⟩
  show Pending _ _ (partsOf (s.session.messages ++ [s.replyMessage env]))
  rw [partsOf_concat]
  show Pending _ _ (_ ++ assistantParts s.acc.text s.acc.calls s.acc.finish)
  unfold assistantParts
  rw [← List.append_assoc, ← List.append_assoc]
  have texted : Pending toolProtocol [] (partsOf s.session.messages ++
      if s.acc.text = [] then [] else [.text s.acc.text]) := by
    split
    · simpa using before
    · exact before.inert rfl rfl
  have fresh' : ∀ call ∈ s.acc.calls, ¬Asked toolProtocol call.id (partsOf s.session.messages ++
      if s.acc.text = [] then [] else [.text s.acc.text]) := by
    rintro call member ⟨part, inParts, asks⟩
    rcases List.mem_append.mp inParts with old | new
    · exact fresh call member ⟨part, old, asks⟩
    · split at new
      · exact absurd new List.not_mem_nil
      · rw [List.mem_singleton.mp new] at asks
        cases asks
  have called := Pending.askAll (p := toolProtocol)
    (fun c : ToolCallDone => .toolCall ⟨c.id, c.name, c.inputJson, true⟩) (·.id) (fun _ => rfl)
    s.acc.calls [] _ texted distinct fresh'
  rw [List.nil_append] at called
  by_cases unknown : s.acc.finish = .unknown
  · rw [if_pos unknown, List.append_nil]
    exact called
  · rw [if_neg unknown]
    exact called.inert rfl rfl

/-- The answer of the first open call. -/
theorem Open.answer {call : ToolCallDone} {rest : List ToolCallDone} {s s' : Sys P}
    (held : Open base (call :: rest) s) (answered : Answered env call s s') : Open base rest s' := by
  intro begun tidy
  rw [answered.log] at tidy
  obtain ⟨distinct, pending⟩ := held begun tidy
  obtain ⟨notLater, distinctRest⟩ := List.nodup_cons.mp distinct
  obtain ⟨id, content, isError, created, messages⟩ := answered.messages
  refine ⟨distinctRest, ?_⟩
  rw [messages, partsOf_concat]
  exact pending.answer notLater rfl

/-- Dropping calls keeps the history complete only when there are none. -/
theorem Open.drop {calls : List ToolCallDone} {s s' : Sys P} (held : Open base calls s)
    (messages : s'.session.messages = s.session.messages)
    (log : s'.log = .dropped calls :: s.log) : Open base [] s' := by
  intro begun tidy
  rw [log] at tidy
  obtain ⟨none_, tail⟩ := List.forall_mem_cons.mp tidy
  have empty : calls = [] := none_
  subst empty
  rw [messages]
  exact held begun tail

end Open

/-! ## Roles -/

/-- The history holds no system message. -/
def Unsystematic (msgs : List Message) : Prop := ∀ m ∈ msgs, m.role ≠ .system

theorem Unsystematic.concat {msgs : List Message} {m : Message} (held : Unsystematic msgs)
    (role : m.role ≠ .system) : Unsystematic (msgs ++ [m]) := by
  intro m' member
  rcases List.mem_append.mp member with old | new
  · exact held m' old
  · rw [List.mem_singleton.mp new]
    exact role

/-- A history without system messages is not what a round has planned. -/
theorem not_planned_of_unsystematic {tools : List ToolSpec} {log : List Ev}
    {msgs : List Message} (assembled : Assembled tools log) (held : Unsystematic msgs) :
    ∃ planned offered, latestPlan log = some (planned, offered) ∧ msgs ≠ planned := by
  obtain ⟨input, plan, ok, latest⟩ := assembled
  refine ⟨plan.messages, tools, latest, fun same => ?_⟩
  obtain ⟨text, rest, shape⟩ := Prompt.messages_of_assembleContext ok
  have member : Prompt.systemMessage text ∈ msgs := by
    rw [same, shape]
    exact List.mem_cons_self ..
  exact held _ member rfl

/-! ## Requests -/

/-- What holds of a request: it differs from the plan of its round, and it is complete when
everything before it was tidy. -/
def RequestFact (base : Prop) (past : List Ev) (e : Ev) : Prop :=
  ∀ msgs tools, e = .request msgs tools →
    (∃ planned offered, latestPlan past = some (planned, offered) ∧ msgs ≠ planned) ∧
    (base → (∀ e ∈ past, Tidy e) → Answers msgs)

variable {base : Prop}

theorem requests_extend {A : Ev → Prop} {past now : List Ev} (held : Always (RequestFact base) past)
    (ext : Extends A past now) (other : ∀ msgs tools, ¬A (.request msgs tools)) :
    Always (RequestFact base) now := by
  refine ext.always held fun mid e _ inA msgs tools same => ?_
  rw [same] at inA
  exact absurd inA (other msgs tools)

/-- The requests of a call carry the history. -/
theorem requests_called {tools : List ToolSpec} {made : Nat} {s s' : Sys P}
    (held : Always (RequestFact base) s.log) (called : Called tools made s s')
    (assembled : Assembled tools s.log) (roles : Unsystematic s.session.messages)
    (complete : Open base [] s) : Always (RequestFact base) s'.log := by
  refine called.calm.log.always held fun mid e ext net msgs offered same => ?_
  rw [same] at net
  have history : msgs = s.session.messages := net.1
  rw [history, latestPlan_of_net ext]
  refine ⟨not_planned_of_unsystematic assembled roles, fun begun tidy => ?_⟩
  exact (complete begun fun e member => tidy e (ext.mem member)).2.paired

/-- The history between two rounds. -/
structure Recorded (base : Prop) (s : Sys P) : Prop where
  complete : Open base [] s
  roles : Unsystematic s.session.messages
  requests : Always (RequestFact base) s.log

/-- The calls of a reply are answered or dropped. -/
theorem toolLoop_recorded (calls : List ToolCallDone) {E : ε → Sys P → Prop} {s : Sys P}
    (tooling : Tooling s.session.state) (open_ : Open base calls s)
    (roles : Unsystematic s.session.messages) :
    wp (toolLoop env calls)
      (fun _ s' => Open base [] s' ∧ Unsystematic s'.session.messages) E s := by
  refine wp_toolLoop env (I := fun rest s' => Tooling s'.session.state ∧ Open base rest s' ∧
    Unsystematic s'.session.messages) ?_ ?_ ?_ calls s ⟨tooling, open_, roles⟩
  · rintro s' ⟨-, complete, roles⟩
    exact ⟨complete, roles⟩
  · rintro call rest s' ⟨-, open_, roles⟩ _ s'' books _ _ log
    have messages : s''.session.messages = s'.session.messages := congrArg Books.messages books
    have polled : Open base (call :: rest)
        { s' with log := .poll .tool true :: s'.log } :=
      open_.extend (A := fun _ => True) rfl (.single trivial s'.log)
    exact ⟨polled.drop messages log, messages ▸ roles⟩
  · rintro call rest s' ⟨tooling, open_, roles⟩ _ s₁ books state log
    have messages : s₁.session.messages = s'.session.messages := congrArg Books.messages books
    refine wp_mono (runTool_spec env (state.symm ▸ tooling)) (fun outcome s₂ ran => ?_)
      (fun _ _ exited => exited)
    obtain ⟨kept, tooling₂, ext⟩ := ran
    intro s₃ answered
    have open₁ : Open base (call :: rest) s₁ :=
      open_.extend (A := fun _ => True) messages (log ▸ .single trivial s'.log)
    have open₃ : Open base rest s₃ := (open₁.extend kept.messages ext).answer env answered
    have roles₃ : Unsystematic s₃.session.messages := by
      obtain ⟨id, content, isError, created, appended⟩ := answered.messages
      rw [appended, kept.messages, messages]
      exact roles.concat nofun
    exact ⟨fun _ => ⟨open₃.drop rfl rfl, roles₃⟩, fun _ _ => ⟨open₃.drop rfl rfl, roles₃⟩,
      fun _ _ => ⟨answered.state.symm ▸ tooling₂, open₃, roles₃⟩⟩

theorem Recorded.extend {A : Ev → Prop} {s s' : Sys P} (held : Recorded base s)
    (messages : s'.session.messages = s.session.messages) (ext : Extends A s.log s'.log)
    (other : ∀ msgs tools, ¬A (.request msgs tools)) : Recorded base s' where
  complete := held.complete.extend messages ext
  roles := messages ▸ held.roles
  requests := requests_extend held.requests ext other

/-- **One round** keeps the history. -/
theorem round_recorded (plan : IntentPlan) {s : Sys P} (going : Going s)
    (held : Recorded base s) :
    wp (round env plan) (fun _ => Recorded base) (fun _ => Recorded base) s := by
  refine wp_round env going.resting ?_ ?_ ?_
  · intro _ s' books _ log
    exact held.extend (A := Eq (.poll .roundTop true)) (congrArg Books.messages books)
      (log ▸ .single rfl s.log) nofun
  · intro _ s' e prepared
    have kept : Recorded base s' :=
      held.extend prepared.calm.messages prepared.calm.log fun _ _ front => front
    exact ⟨kept.complete, kept.roles, kept.requests⟩
  · intro _ s₁ budget prepared _ assembled
    have held₁ : Recorded base s₁ :=
      held.extend prepared.calm.messages prepared.calm.log fun _ _ front => front
    have called₂ {s₂ : Sys P}
        (called : Called (toolsetFor plan env.opts.tools) (maxAttempts env) s₁ s₂) :
        Recorded base s₂ :=
      ⟨held₁.complete.extend called.calm.messages called.calm.log,
        called.calm.messages ▸ held₁.roles,
        requests_called held₁.requests called assembled held₁.roles held₁.complete⟩
    refine wp_mono (oneRound_spec env _ budget (.inl prepared.state))
      (fun _ s₂ answered => ?_) (fun e s₂ called => ?_)
    · have held₂ := called₂ answered.1
      have open₂ : Open base s₂.acc.calls (s₂.replied env) := held₂.complete.replied env
      have roles₂ : Unsystematic (s₂.replied env).session.messages := held₂.roles.concat nofun
      have requests₂ : Always (RequestFact base) (s₂.replied env).log := ⟨nofun, held₂.requests⟩
      refine wp_settleReply env answered.2 ?_ ?_ ?_
      · intro _
        exact ⟨open₂.drop rfl rfl, roles₂, nofun, requests₂⟩
      · intro none_ s₃ calm _
        rw [none_] at open₂
        exact ⟨open₂.extend calm.messages calm.log, calm.messages ▸ roles₂,
          requests_extend requests₂ calm.log fun _ _ ending => ending⟩
      · intro s₃ calm toolPhase
        have success : s₃.result.ec = .success := by
          rw [calm.result]
          show s₂.result.ec = .success
          rw [answered.1.calm.result, prepared.calm.result, going.ec]
        refine wp_mono (wp_and
          (toolLoop_spec env _ (E := fun _ => Recorded base) (.inl toolPhase) success)
          (toolLoop_recorded env _ (E := fun _ => Recorded base) (.inl toolPhase)
            (open₂.extend calm.messages calm.log) (calm.messages ▸ roles₂)))
          (fun _ s₄ post => ?_) (fun _ _ failed => failed.1)
        obtain ⟨worked, complete, roles⟩ := post
        intro s₅ quiet
        have requests₄ : Always (RequestFact base) s₄.log :=
          requests_extend (requests_extend requests₂ calm.log fun _ _ move => move) worked.log
            fun _ _ inTool => inTool
        have held₅ : Recorded base s₅ :=
          Recorded.extend ⟨complete, roles, requests₄⟩ (congrArg Books.messages quiet.books)
            quiet.log fun _ _ reports => reports
        exact ⟨fun _ => held₅, fun _ _ => ⟨held₅.complete, held₅.roles, held₅.requests⟩,
          fun _ _ => held₅⟩
    · have held₂ := called₂ called
      exact ⟨held₂.complete, held₂.roles, held₂.requests⟩

/-! ## Drives -/

theorem reset_messages (s : Sys P) :
    s.opened.reset.session.messages = s.session.messages := by
  unfold Sys.reset
  split <;> rfl

/-- A drive starts with the history of the session. -/
theorem recorded_reset {s : Sys P} (roles : Unsystematic s.session.messages) :
    Recorded (Pending toolProtocol [] (partsOf s.session.messages)) s.opened.reset where
  complete := fun complete _ => by
    rw [reset_messages]
    exact ⟨List.nodup_nil, complete⟩
  roles := reset_messages s ▸ roles
  requests := by
    unfold Sys.reset
    split
    · refine ⟨?_, trivial⟩
      intro _ _ sent
      cases sent
    · trivial

/-- **Every drive keeps the history**, looked at after any number of rounds. -/
theorem drive_recorded (fuel : Nat) (input : Bytes) (s : Sys P)
    (roles : Unsystematic s.session.messages) :
    Recorded (Pending toolProtocol [] (partsOf s.session.messages))
      (drive env fuel input s).2 := by
  have start := recorded_reset roles
  refine drive_rule env
    (I := fun s' => Going s' ∧
      Recorded (Pending toolProtocol [] (partsOf s.session.messages)) s')
    (E := Recorded (Pending toolProtocol [] (partsOf s.session.messages)))
    (F := fun _ => Recorded (Pending toolProtocol [] (partsOf s.session.messages)))
    ?_ ?_ ?_ ?_ fuel
  · refine wp_beginDrive env ?_ ?_ ?_
    · intro _
      exact ⟨start.complete, start.roles, start.requests⟩
    · intro _ _ s' books _ log
      exact start.extend (A := Eq (.poll .entry true)) (congrArg Books.messages books)
        (log ▸ .single rfl _) nofun
    · intro idle _ s' begun
      obtain ⟨id, created, messages⟩ := begun.messages
      refine ⟨rfl, begun_going env idle begun, start.complete.user env begun.log messages, ?_,
        requests_extend start.requests begun.log fun _ _ impossible => impossible⟩
      rw [messages]
      exact start.roles.concat nofun
  · intro s' held
    exact wp_mono (wp_and (round_going env _ held.1) (round_recorded env _ held.1 held.2))
      (fun _ _ post => post) (fun _ _ post => post.2)
  · intro s' held
    exact held.2
  · intro s' held
    refine wp_mono (finishDrive_spec env (E := fun _ _ => False) _) (fun _ s'' finished => ?_)
      (fun _ _ impossible => impossible)
    exact held.extend finished.messages finished.log fun _ _ final => final

theorem Calls.unsystematic {disk : Disk} {calls : List (Call P)} {s : Sys P}
    (run : Calls env disk calls s) : Unsystematic s.session.messages := by
  induction run with
  | fresh => exact fun _ member => absurd member List.not_mem_nil
  | @call past s s' fuel input r _ returned inductionHypothesis =>
      have recorded := drive_recorded env fuel input s inductionHypothesis
      rw [returned] at recorded
      exact recorded.roles
  | agent _ inductionHypothesis => exact inductionHypothesis

/-- Tidy calls leave a complete history. -/
theorem Calls.complete {disk : Disk} {calls : List (Call P)} {s : Sys P}
    (run : Calls env disk calls s) (tidy : ∀ call ∈ calls, ∀ e ∈ call.after.log, Tidy e) :
    Pending toolProtocol [] (partsOf s.session.messages) := by
  induction run with
  | fresh => exact pending_nil
  | @call past s s' fuel input r earlier returned inductionHypothesis =>
      obtain ⟨latest, older⟩ := List.forall_mem_cons.mp tidy
      have recorded := drive_recorded env fuel input s (earlier.unsystematic env)
      rw [returned] at recorded
      exact (recorded.complete (inductionHypothesis older) latest).2
  | agent _ inductionHypothesis => exact inductionHypothesis tidy

/-- A request with a given kind of history. -/
def requestWith (p : List Message → Bool) : Ev → Bool
  | .request msgs _ => p msgs
  | _ => false

/-- A request with a given kind of history, at its place in the log. -/
theorem request_at {log : List Ev} {p : List Message → Bool}
    (found : log.any (requestWith p) = true) :
    ∃ later msgs tools past, log = later ++ .request msgs tools :: past ∧ p msgs = true := by
  obtain ⟨e, member, holds⟩ := List.any_eq_true.mp found
  cases e <;> simp only [requestWith, Bool.false_eq_true] at holds
  case request msgs tools =>
      obtain ⟨later, past, split⟩ := List.append_of_mem member
      exact ⟨later, msgs, tools, past, split, holds⟩

/-- What a recorded run says of one of its requests. -/
theorem Recorded.request {complete : Prop} {s : Sys P} (recorded : Recorded complete s)
    {later past : List Ev} {msgs : List Message} {tools : List ToolSpec}
    (here : s.log = later ++ .request msgs tools :: past) :
    (∃ planned offered, latestPlan past = some (planned, offered) ∧ msgs ≠ planned) ∧
      (complete → (∀ e ∈ past, Tidy e) → Answers msgs) := by
  have fact := recorded.requests
  rw [here] at fact
  exact fact.at msgs tools rfl

/-- **No request carries the plan of its round.**  After any calls on the session, every
request of a drive was preceded by a plan, and carries other messages. -/
theorem request_never_carries_plan {disk : Disk} {calls : List (Call P)} {s : Sys P}
    (run : Calls env disk calls s) (fuel : Nat) (input : Bytes) {later past : List Ev}
    {msgs : List Message} {tools : List ToolSpec}
    (here : (drive env fuel input s).2.log = later ++ .request msgs tools :: past) :
    ∃ planned offered, latestPlan past = some (planned, offered) ∧ msgs ≠ planned :=
  ((drive_recorded env fuel input s (run.unsystematic env)).request here).1

/-- A task without tools sends a request. -/
theorem hello_requests :
    (drive (scriptedEnv .empty [] []) 3 (str "explain x") scriptedStart).2.log.any
      (requestWith fun _ => true) = true := by
  decide +kernel

theorem request_never_carries_plan_hello :
    ∃ later msgs tools past planned offered,
      (drive (scriptedEnv .empty [] []) 3 (str "explain x") scriptedStart).2.log =
        later ++ .request msgs tools :: past ∧
      latestPlan past = some (planned, offered) ∧ msgs ≠ planned := by
  obtain ⟨later, msgs, tools, past, here, _⟩ := request_at hello_requests
  have run : Calls (scriptedEnv .empty [] []) scriptedDisk [] scriptedStart := .fresh
  obtain ⟨planned, offered, latest, other⟩ :=
    request_never_carries_plan (scriptedEnv .empty [] []) run 3 (str "explain x") here
  exact ⟨later, msgs, tools, past, planned, offered, here, latest, other⟩

/-- The first request of a task: its plan starts with the prompt, and it does not. -/
theorem request_misses_plan_hello :
    ¬ ∀ later msgs tools past,
      (drive (scriptedEnv .empty [] []) 3 (str "explain x") scriptedStart).2.log =
        later ++ .request msgs tools :: past →
      ∃ offered, latestPlan past = some (msgs, offered) := by
  intro claim
  obtain ⟨later, msgs, tools, past, here, _⟩ := request_at hello_requests
  obtain ⟨offered, carried⟩ := claim later msgs tools past here
  have roles : Unsystematic scriptedStart.session.messages :=
    fun _ member => absurd member List.not_mem_nil
  obtain ⟨planned, _, latest, other⟩ :=
    ((drive_recorded (scriptedEnv .empty [] []) 3 (str "explain x") _ roles).request here).1
  rw [carried] at latest
  cases latest
  exact other rfl

/-- **The calls in a request are answered while the session is tidy.**  When no reply of the
earlier drives, nor of this one so far, has used a call id twice, and no call was dropped,
every request has exactly one later result for each call, and an earlier call for each
result. -/
theorem request_answers_its_calls {disk : Disk} {calls : List (Call P)} {s : Sys P}
    (run : Calls env disk calls s) (tidy : ∀ call ∈ calls, ∀ e ∈ call.after.log, Tidy e)
    (fuel : Nat) (input : Bytes) {later past : List Ev} {msgs : List Message}
    {tools : List ToolSpec}
    (here : (drive env fuel input s).2.log = later ++ .request msgs tools :: past)
    (tidyPast : ∀ e ∈ past, Tidy e) : Answers msgs :=
  ((drive_recorded env fuel input s (run.unsystematic env)).request here).2
    (run.complete env tidy) tidyPast

/-- The history holds a call. -/
def hasCall (msgs : List Message) : Bool :=
  (partsOf msgs).any fun part => (toolProtocol.asks part).isSome

/-- The history holds a call without any result. -/
def hasOrphan (msgs : List Message) : Bool :=
  (partsOf msgs).any fun part =>
    match toolProtocol.asks part with
    | some id => answersTo toolProtocol id (partsOf msgs) = 0
    | none => false

theorem not_answers_of_hasOrphan {msgs : List Message} (orphan : hasOrphan msgs = true) :
    ¬Answers msgs := by
  intro answers
  obtain ⟨part, member, lonely⟩ := List.any_eq_true.mp orphan
  cases asks : toolProtocol.asks part with
  | none => simp [asks] at lonely
  | some id =>
      have unanswered : answersTo toolProtocol id (partsOf msgs) = 0 := by
        simpa [asks] using lonely
      exact answers.answersTo_ne_zero member asks unanswered

/-- An agent that is asked for a tool it does not have, and then for a summary. -/
def oneToolEnv : Env := scriptedEnv .empty [callReply "c1" "look" (.object [])] []

theorem request_answers_its_calls_one_tool :
    ∃ later msgs tools past,
      (drive oneToolEnv 3 (str "explain x") scriptedStart).2.log =
        later ++ .request msgs tools :: past ∧ hasCall msgs = true ∧ Answers msgs := by
  obtain ⟨found, tidy⟩ :
      (drive oneToolEnv 3 (str "explain x") scriptedStart).2.log.any (requestWith hasCall) = true ∧
      ∀ e ∈ (drive oneToolEnv 3 (str "explain x") scriptedStart).2.log, Tidy e := by
    decide +kernel
  obtain ⟨later, msgs, tools, past, here, call⟩ := request_at found
  have run : Calls oneToolEnv scriptedDisk [] scriptedStart := .fresh
  refine ⟨later, msgs, tools, past, here, call, request_answers_its_calls oneToolEnv run
    (fun _ member => absurd member List.not_mem_nil) 3 (str "explain x") here ?_⟩
  intro e member
  refine tidy e ?_
  rw [here]
  exact List.mem_append_right later (List.mem_cons_of_mem _ member)

/-- A gate that objects to the syntax of everything. -/
def strictCheckers : Verify.Checkers :=
  { lenientCheckers with checkSyntax := fun _ _ => [⟨1, 1, str "no"⟩] }

/-- An agent whose provider asks for the same refused write three times at once. -/
def abortedEnv : Env :=
  { scriptedEnv writeTools
      [connection [callFrame 0 "c1" "file.write" (writeArgs "a" "x"),
        callFrame 1 "c2" "file.write" (writeArgs "a" "x"),
        callFrame 2 "c3" "file.write" (writeArgs "a" "x"), endFrame "tool_calls" 3 4] (.ok ())] []
    with opts.verify := some strictCheckers }

/-- The second refusal aborts the task and drops the third call, which every request of the
next task then carries without a result. -/
theorem request_with_orphan_after_abort :
    ¬ ∀ (calls : List (Call factory)) (s : Sys factory),
      Calls abortedEnv scriptedDisk calls s → ∀ fuel input later msgs tools past,
        (drive abortedEnv fuel input s).2.log = later ++ .request msgs tools :: past →
        Answers msgs := by
  intro claim
  obtain ⟨returns, found⟩ :
      (drive abortedEnv 3 (str "explain x") scriptedStart).1.isSome = true ∧
      (drive abortedEnv 3 (str "explain x")
        (drive abortedEnv 3 (str "explain x") scriptedStart).2).2.log.any
          (requestWith hasOrphan) = true := by
    decide +kernel
  have start : Calls abortedEnv scriptedDisk [] scriptedStart := .fresh
  have run := start.scripted returns
  obtain ⟨later, msgs, tools, past, here, orphan⟩ := request_at found
  exact not_answers_of_hasOrphan orphan (claim _ _ run 3 _ later msgs tools past here)

end Opencodepp.Agent
