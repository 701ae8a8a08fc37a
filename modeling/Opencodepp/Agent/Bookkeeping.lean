import Opencodepp.Agent.Deliveries
import Opencodepp.Agent.Lifecycle

/-!
# The books of a session

A drive is entered in its books round by round: the stream behind every reply, the tokens used,
and the history with the requests made from it.  `drive_closed` says that the books of every
drive are right at every moment, and `Calls.closed` that those of a whole session are.
-/

set_option autoImplicit false

namespace Opencodepp.Agent

open Opencodepp.Core
open Opencodepp.Library
open Opencodepp.Library.Program
open Opencodepp.Library.Trace
open Opencodepp.Msg
open Opencodepp.Provider

variable (env : Env)

/-! ## The books of a drive -/

/-- The frames behind the reply of a round: those its attempts have delivered of their scripts,
all taken by the adapter a request starts with into blank accumulators, without an error. -/
structure Streamed (p : Adapter) (round : Round) (frames : List StreamFrame) : Prop where
  sent : ∃ size, frames = framesOf size (env.world.scripts round.attempts)
  acc : round.acc = (replay (p, .blank) frames).2
  quiet : round.acc.providerErr.ok = true

/-- A round of one attempt has the whole body of that attempt for its stream, or nothing. -/
theorem Streamed.of_single {p : Adapter} {round : Round} {frames : List StreamFrame} {n : Nat}
    (streamed : Streamed env p round frames) (single : round.attempts = [n]) :
    frames = [] ∨
      frames = (bodyOutcome (env.world.attempts n).body (env.world.attempts n).bodyEnd).1 := by
  obtain ⟨size, sent⟩ := streamed.sent
  have whole : frames = ((env.world.attempts n).outcome size).1 := by
    rw [sent, single]
    exact List.append_nil _
  rw [whole]
  unfold Attempt.outcome
  cases (env.world.attempts n).reaches size with
  | error e => exact .inl rfl
  | ok reached => exact .inr rfl

/-- The tokens used after more rounds. -/
def spent (used : UInt64) (rounds : List Round) : UInt64 :=
  rounds.foldl (fun used round => accountTokens used round.acc.usage) used

/-- The ids of the calls of a round. -/
def Round.callIds (round : Round) : List Bytes := round.acc.calls.map (·.id)

/-- The ids the latest reply has called under. -/
def latestIds (rounds : List Round) : List Bytes := (rounds.getLast?.map Round.callIds).getD []

/-- The messages of so many rounds: turns of the user, and after every reply the results of its
calls. -/
inductive Transcript : List Round → List Message → Prop
  | start {turns : List Message} (users : ∀ m ∈ turns, UserMessage [] m) : Transcript [] turns
  | reply {rounds : List Round} {round : Round} {msgs answers : List Message} {said : Message}
      (past : Transcript rounds msgs) (role : said.role = .assistant)
      (parts : said.parts = assistantParts round.acc.text round.acc.calls round.acc.finish)
      (users : ∀ m ∈ answers, UserMessage round.callIds m) :
      Transcript (rounds ++ [round]) (msgs ++ said :: answers)

theorem Transcript.users {rounds : List Round} {msgs more : List Message}
    (transcript : Transcript rounds msgs) (all : ∀ m ∈ more, UserMessage (latestIds rounds) m) :
    Transcript rounds (msgs ++ more) := by
  cases transcript with
  | start users =>
      refine .start fun m member => ?_
      rcases List.mem_append.mp member with old | new
      · exact users m old
      · exact all m new
  | @reply rounds round msgs answers said past role parts users =>
      rw [List.append_assoc, List.cons_append]
      refine .reply past role parts fun m member => ?_
      rcases List.mem_append.mp member with old | new
      · exact users m old
      · have answered := all m new
        unfold latestIds at answered
        rw [List.getLast?_concat] at answered
        exact answered

theorem Transcript.append {first : List Round} {early : List Message}
    (past : Transcript first early) {second : List Round} {late : List Message}
    (transcript : Transcript second late) : Transcript (first ++ second) (early ++ late) := by
  induction transcript with
  | @start turns users =>
      rw [List.append_nil]
      exact past.users fun m member => (users m member).mono fun _ none_ =>
        absurd none_ List.not_mem_nil
  | @reply rounds round msgs answers said _ role parts users inductionHypothesis =>
      rw [← List.append_assoc, ← List.append_assoc]
      exact .reply inductionHypothesis role parts users

/-- The rounds completed since the state `s₀`. -/
def roundsSince (s₀ s : Sys factory) : List Round := (tally s₀.count.attempts s.log).rounds

/-- The books of a drive that started in `s₀`. -/
structure Closed (s₀ s : Sys factory) : Prop where
  maker : makerOf env s = makerOf env s₀
  streams : ∀ round ∈ roundsSince s₀ s, ∃ p frames, makerOf env s₀ = .ok p ∧
    Streamed env p round frames
  tokensUsed : s.session.tokensUsed = spent s₀.session.tokensUsed (roundsSince s₀ s)
  history : ∃ new, s.session.messages = s₀.session.messages ++ new ∧
    Transcript (roundsSince s₀ s) new
  requests : ∀ m tools, .request m tools ∈ s.log → ∃ made new, made <+: roundsSince s₀ s ∧
    m = s₀.session.messages ++ new ∧ Transcript made new

/-- The books between two rounds: no attempt is open. -/
structure Booked (s₀ s : Sys factory) : Prop extends Closed env s₀ s where
  idle : (tally s₀.count.attempts s.log).open_ = []
  next : (tally s₀.count.attempts s.log).next = s.count.attempts

section Books

variable {env} {s₀ s s' : Sys factory}

theorem tally_aside {ids : List Bytes} (aside : Aside ids s s') (start : Nat) :
    tally start s'.log = tally start s.log :=
  tally_extend (aside.log.mono fun _ (apart : Apart _) =>
    (netted_of_apart apart : Netted [] _)) start

/-- What happens aside keeps the books. -/
theorem Closed.aside {ids : List Bytes} (held : Closed env s₀ s) (aside : Aside ids s s')
    (answered : ∀ id ∈ ids, id ∈ latestIds (roundsSince s₀ s)) : Closed env s₀ s' := by
  have same : roundsSince s₀ s' = roundsSince s₀ s := congrArg Tally.rounds (tally_aside aside _)
  obtain ⟨new, split, transcript⟩ := held.history
  obtain ⟨more, appended, users⟩ := aside.messages
  refine ⟨(SameMaker.of_provider env aside.provider).trans held.maker, ?_, ?_, ?_, ?_⟩
  · rw [same]
    exact held.streams
  · rw [same]
    exact aside.tokensUsed.trans held.tokensUsed
  · rw [same]
    refine ⟨new ++ more, by rw [appended, split, List.append_assoc], transcript.users ?_⟩
    exact fun m member => (users m member).mono answered
  · rw [same]
    intro m tools member
    rcases aside.log.mem_or member with old | impossible
    · exact held.requests m tools old
    · exact impossible.elim

theorem Booked.aside {ids : List Bytes} (held : Booked env s₀ s) (aside : Aside ids s s')
    (answered : ∀ id ∈ ids, id ∈ latestIds (roundsSince s₀ s)) : Booked env s₀ s' where
  toClosed := held.toClosed.aside aside answered
  idle := by
    rw [tally_aside aside]
    exact held.idle
  next := by
    rw [tally_aside aside, aside.attempts]
    exact held.next

/-- A call of the provider keeps the books, however it ends. -/
theorem Closed.called {made : Nat} (held : Closed env s₀ s) (noted : Attempted made s s')
    (same : SameMaker env s s') : Closed env s₀ s' := by
  have rounds : roundsSince s₀ s' = roundsSince s₀ s := by
    unfold roundsSince
    rw [noted.tally]
    rfl
  refine ⟨same.trans held.maker, ?_, ?_, ?_, ?_⟩
  · rw [rounds]
    exact held.streams
  · rw [rounds]
    exact noted.tokensUsed.trans held.tokensUsed
  · rw [rounds, noted.messages]
    exact held.history
  · rw [rounds]
    intro m tools member
    rcases noted.requests m tools member with old | now
    · exact held.requests m tools old
    · obtain ⟨new, split, transcript⟩ := held.history
      exact ⟨_, new, List.prefix_rfl, now.trans split, transcript⟩

/-- **A reply is entered in the books.** -/
theorem Booked.replied {p : Adapter} {size made : Nat} (held : Booked env s₀ s)
    (bound : boundProvider env s = .ok p) (same : SameMaker env s s')
    (returned : Returned env p size made s s') : Booked env s₀ (s'.replied env) := by
  let round : Round := ⟨List.range' s.count.attempts made, s'.acc⟩
  have tallied : tally s₀.count.attempts (s'.replied env).log =
      ⟨[], s.count.attempts + made, roundsSince s₀ s ++ [round]⟩ := by
    show (⟨[], (tally s₀.count.attempts s'.log).next, (tally s₀.count.attempts s'.log).rounds ++
      [⟨(tally s₀.count.attempts s'.log).open_, s'.acc⟩]⟩ : Tally) = _
    rw [returned.noted.tally]
    unfold Tally.more
    rw [held.idle, held.next]
    rfl
  have rounds : roundsSince s₀ (s'.replied env) = roundsSince s₀ s ++ [round] :=
    congrArg Tally.rounds tallied
  have made_ : makerOf env s = .ok p.resetStream := by
    unfold makerOf
    rw [bound]
    rfl
  have streamed : Streamed env p.resetStream round
      (framesOf size (env.world.scripts (List.range' s.count.attempts made))) := by
    have stream := Line.stream_tried size (env.world.scripts (List.range' s.count.attempts made))
      (s.stream_requesting env p)
    rw [← returned.line] at stream
    exact ⟨⟨size, rfl⟩, (provider_of_stream stream).2, returned.quiet⟩
  have count : s'.count.attempts = s.count.attempts + made := by
    have kept := (Line.tried_kept size (env.world.scripts (List.range' s.count.attempts made))
      (s.requesting env p).line).2.2
    rw [← returned.line] at kept
    refine kept.trans ?_
    show s.count.attempts + _ = _
    simp [World.scripts]
  obtain ⟨new, split, transcript⟩ := held.history
  refine ⟨⟨?_, ?_, ?_, ?_, ?_⟩, ?_, ?_⟩
  · exact (SameMaker.of_provider env rfl : SameMaker env s' (s'.replied env)).trans
      (same.trans held.maker)
  · rw [rounds]
    intro other member
    rcases List.mem_append.mp member with old | now
    · exact held.streams other old
    · rw [List.mem_singleton.mp now]
      exact ⟨_, _, held.maker.symm.trans made_, streamed⟩
  · rw [rounds]
    show accountTokens s'.session.tokensUsed s'.acc.usage = _
    rw [returned.noted.tokensUsed, held.tokensUsed]
    unfold spent
    rw [List.foldl_append]
    rfl
  · rw [rounds]
    refine ⟨new ++ [s'.replyMessage env], ?_, ?_⟩
    · show s'.session.messages ++ [s'.replyMessage env] = _
      rw [returned.noted.messages, split, List.append_assoc]
    · exact .reply transcript rfl rfl fun _ none_ => absurd none_ List.not_mem_nil
  · rw [rounds]
    intro m tools member
    have member' : .request m tools ∈ s'.log := by
      rcases List.mem_cons.mp member with impossible | old
      · cases impossible
      · exact old
    rcases returned.noted.requests m tools member' with old | now
    · obtain ⟨made, asked, earlier, same, past⟩ := held.requests m tools old
      exact ⟨made, asked, earlier.trans (List.prefix_append _ _), same, past⟩
    · exact ⟨_, new, List.prefix_append _ _, now.trans split, transcript⟩
  · rw [tallied]
  · rw [tallied]
    exact count.symm

end Books

/-- A round keeps the books. -/
theorem round_booked (plan : IntentPlan) {s₀ s : Sys factory} (held : Booked env s₀ s) :
    wp (round env plan) (fun _ s' => Booked env s₀ s') (fun _ s' => Closed env s₀ s') s := by
  have nothing {s : Sys factory} : ∀ id ∈ ([] : List Bytes), id ∈ latestIds (roundsSince s₀ s) :=
    fun _ none_ => absurd none_ List.not_mem_nil
  -- the result is not in the books
  have resulted {s : Sys factory} (ec : ErrorCode) (closed : Closed env s₀ s) :
      Closed env s₀ { s with result.ec := ec } :=
    have aside : Aside [] s { s with result.ec := ec } :=
      ⟨rfl, rfl, rfl, ⟨[], (List.append_nil _).symm, fun _ none_ =>
        absurd none_ List.not_mem_nil⟩, .refl _ s.log⟩
    closed.aside aside nothing
  unfold round
  rw [wp_bind]
  refine wp_mono ((aside_pollCancel env [] .roundTop).wp s) (fun seen s₁ polled => ?_)
    (fun _ _ polled => (held.aside polled nothing).toClosed)
  have held₁ := held.aside polled nothing
  rw [wp_bind, wp_stopIf]
  refine ⟨fun _ => held₁.toClosed, fun _ => ?_⟩
  rw [wp_bind]
  refine wp_mono ((aside_normaliseRound env []).wp s₁) (fun _ s₂ normal => ?_)
    (fun _ _ normal => (held₁.aside normal nothing).toClosed)
  have held₂ := held₁.aside normal nothing
  rw [wp_bind, wp_orBreak]
  refine wp_mono ((aside_prepareRound env [] plan).wp s₂) (fun prepared s₃ ready => ?_)
    (fun e _ failed => resulted e.ec (held₂.aside failed nothing).toClosed)
  have held₃ := held₂.aside ready nothing
  rw [wp_bind, wp_orBreak]
  refine wp_mono (wp_and ((oneRound_sameMaker env prepared.1 prepared.2).wp s₃)
    (wp_and (oneRound_returns env prepared.1 prepared.2 s₃)
      (oneRound_attempted env prepared.1 prepared.2 s₃))) (fun _ s₄ post => ?_)
    (fun e s₄ post => ?_)
  · obtain ⟨same, ⟨p, size, made, bound, returned⟩, -⟩ := post
    have held₄ := held₃.replied bound same returned
    have latest : latestIds (roundsSince s₀ (s₄.replied env)) = s₄.acc.calls.map (·.id) := by
      unfold latestIds roundsSince
      show (Option.map Round.callIds (List.getLast? (_ ++ [_]))).getD [] = _
      rw [List.getLast?_concat]
      rfl
    unfold settleReply
    rw [wp_bind, wp_acceptReply]
    have settles : Within (Aside (s₄.acc.calls.map (·.id)))
        (if s₄.acc.finish = .permissionDenied then do
            record (.dropped s₄.acc.calls)
            breakWith (.of .eToolReject)
          else if s₄.acc.calls = [] then concludeTask env s₄.acc.text
          else toolRound env s₄.acc.calls : Program (Sys factory) Unit Unit) := by
      refine .ite (.bind (Aside.framing _) (aside_record _ trivial) fun _ => aside_breakWith _ _)
        (.ite (aside_concludeTask env _ _) (aside_toolRound env _ fun call member => ?_))
      exact List.mem_map_of_mem member
    refine wp_mono (settles.wp (s₄.replied env)) (fun _ _ settled => ?_) (fun _ _ settled => ?_)
    · exact held₄.aside settled fun _ member => latest ▸ member
    · exact (held₄.aside settled fun _ member => latest ▸ member).toClosed
  · obtain ⟨same, -, ⟨made, noted⟩⟩ := post
    exact resulted e.ec (held₃.toClosed.called noted same)

/-- The books are open and empty when a drive starts. -/
theorem booked_opened (s : Sys factory) : Booked env s s.opened where
  maker := SameMaker.of_provider env rfl
  streams _ none_ := absurd none_ List.not_mem_nil
  tokensUsed := rfl
  history := ⟨[], (List.append_nil _).symm, .start fun _ none_ => absurd none_ List.not_mem_nil⟩
  requests _ _ none_ := absurd none_ List.not_mem_nil
  idle := rfl
  next := rfl

/-- **The books of a drive are kept to its end**, and at every moment before. -/
theorem drive_closed (fuel : Nat) (input : Bytes) (s : Sys factory) :
    Closed env s (drive env fuel input s).2 := by
  have nothing {s' : Sys factory} : ∀ id ∈ ([] : List Bytes), id ∈ latestIds (roundsSince s s') :=
    fun _ none_ => absurd none_ List.not_mem_nil
  refine drive_rule env (I := Booked env s) (E := Closed env s) (F := fun _ => Closed env s)
    ?_ ?_ ?_ ?_ fuel
  · have plans : wp (beginDrive env input) (fun plan _ => plan = classifyIntent input)
        (fun _ _ => True) s.opened :=
      wp_beginDrive env (fun _ => trivial) (fun _ _ _ _ _ _ => trivial) (fun _ _ _ _ => rfl)
    refine wp_mono (wp_and plans ((aside_beginDrive env [] input).wp s.opened))
      (fun _ _ post => ?_) (fun _ _ post => ?_)
    · exact ⟨post.1, (booked_opened env s).aside post.2 nothing⟩
    · exact ((booked_opened env s).aside post.2 nothing).toClosed
  · exact fun s' held => round_booked env _ held
  · exact fun _ held => held.toClosed
  · intro s' held
    exact wp_mono ((aside_finishDrive env [] _).wp s') (fun _ _ finished => held.aside finished nothing)
      (fun e _ _ => e.elim)

/-! ## The books of a session -/

/-- The rounds of a call. -/
def Call.rounds (call : Call factory) : List Round := roundsSince call.before call.after

/-- The rounds of calls that are listed newest first. -/
def roundsOf (calls : List (Call factory)) : List Round := calls.reverse.flatMap Call.rounds

theorem roundsOf_cons (call : Call factory) (past : List (Call factory)) :
    roundsOf (call :: past) = roundsOf past ++ call.rounds := by
  unfold roundsOf
  rw [List.reverse_cons, List.flatMap_append]
  simp

/-- The books of a session since it was opened over this file system. -/
structure Balanced (disk : Disk) (rounds : List Round) (s : Sys factory) : Prop where
  maker : makerOf env s = makerOf env (.fresh factory disk)
  streams : ∀ round ∈ rounds, ∃ p frames, makerOf env (.fresh factory disk) = .ok p ∧
    Streamed env p round frames
  tokensUsed : s.session.tokensUsed = spent 0 rounds
  history : Transcript rounds s.session.messages

section Session

variable {env} {disk : Disk} {rounds : List Round} {s : Sys factory}

theorem balanced_fresh (disk : Disk) : Balanced env disk [] (.fresh factory disk) where
  maker := rfl
  streams _ none_ := absurd none_ List.not_mem_nil
  tokensUsed := rfl
  history := .start fun _ none_ => absurd none_ List.not_mem_nil

/-- A drive adds its rounds to the books of the session. -/
theorem Balanced.closed {s' : Sys factory} (balanced : Balanced env disk rounds s)
    (closed : Closed env s s') : Balanced env disk (rounds ++ roundsSince s s') s' where
  maker := closed.maker.trans balanced.maker
  streams round member := by
    rcases List.mem_append.mp member with old | new
    · exact balanced.streams round old
    · obtain ⟨p, frames, made, streamed⟩ := closed.streams round new
      exact ⟨p, frames, balanced.maker.symm.trans made, streamed⟩
  tokensUsed := by
    rw [closed.tokensUsed, balanced.tokensUsed]
    exact List.foldl_append.symm
  history := by
    obtain ⟨new, split, transcript⟩ := closed.history
    rw [split]
    exact balanced.history.append transcript

theorem Balanced.drive (balanced : Balanced env disk rounds s) (fuel : Nat) (input : Bytes) :
    Balanced env disk (rounds ++ roundsSince s (drive env fuel input s).2)
      (drive env fuel input s).2 :=
  balanced.closed (drive_closed env fuel input s)

/-- The requests of a drive are made from the history of the session. -/
theorem Balanced.requests (balanced : Balanced env disk rounds s) (fuel : Nat) (input : Bytes)
    {m : List Message} {tools : List ToolSpec}
    (asked : .request m tools ∈ (Agent.drive env fuel input s).2.log) :
    ∃ made, made <+: rounds ++ roundsSince s (Agent.drive env fuel input s).2 ∧
      Transcript made m := by
  obtain ⟨made, new, earlier, split, transcript⟩ :=
    (drive_closed env fuel input s).requests m tools asked
  refine ⟨rounds ++ made, (List.prefix_append_right_inj rounds).mpr earlier, ?_⟩
  rw [split]
  exact balanced.history.append transcript

/-- **The books of a session are right after any calls.** -/
theorem Calls.balanced {calls : List (Call factory)} (run : Calls env disk calls s) :
    Balanced env disk (roundsOf calls) s := by
  induction run with
  | fresh => exact balanced_fresh disk
  | @call past s s' fuel input r earlier returned inductionHypothesis =>
      rw [roundsOf_cons]
      have driven := inductionHypothesis.drive fuel input
      rw [returned] at driven
      exact driven
  | agent earlier inductionHypothesis =>
      exact ⟨(SameMaker.of_provider env rfl).trans inductionHypothesis.maker,
        inductionHypothesis.streams, inductionHypothesis.tokensUsed, inductionHypothesis.history⟩

end Session

end Opencodepp.Agent
