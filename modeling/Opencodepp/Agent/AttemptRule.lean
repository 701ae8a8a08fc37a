import Opencodepp.Agent.Loop

/-!
# The rule of an attempt

What the primitive steps of an attempt keep, the attempt keeps, however its script ends it, and
so does the whole retry loop.  The primitive steps are polls and reports, changes of state and
lane, the count of the attempts, the entry of a request, and the delivery of a frame.
-/

set_option autoImplicit false

namespace Opencodepp.Agent

open Opencodepp.Core
open Opencodepp.Library
open Opencodepp.Library.Program
open Opencodepp.Msg
open Opencodepp.Provider

variable {P : Provider} (env : Env)

/-- The primitive steps of an attempt on these messages keep the relation. -/
structure AttemptSteps (R : Sys P → Sys P → Prop) (msgs : List Message) : Prop where
  framing : Framing R
  poll : ∀ (site : PollSite) (s : Sys P), R s (pollCancel env site s : Except Failure Bool × Sys P).2
  emit : ∀ (phase : String) (detail : Bytes) (status : Nat) (s : Sys P),
    R s (emit env phase detail status s : Except Failure Unit × Sys P).2
  state : ∀ (target : AgentState) (s : Sys P),
    R s (setState target s : Except Failure Unit × Sys P).2
  lane : ∀ (lane : AgentLane) (s : Sys P), R s (setLane lane s : Except Failure Unit × Sys P).2
  next : ∀ s : Sys P, R s (nextAttempt env s : Except Failure Attempt × Sys P).2
  request : ∀ (tools : List ToolSpec) (s : Sys P),
    R s (record (.request msgs tools) s : Except Failure Unit × Sys P).2
  fresh : ∀ s : Sys P, R s { s with parseErr := .success }
  deliver : ∀ (frame : StreamFrame) (s : Sys P),
    R s (deliverFrame frame s : Except Failure Unit × Sys P).2

section Steps

variable {R : Sys P → Sys P → Prop} {msgs : List Message} (steps : AttemptSteps env R msgs)
include steps

theorem AttemptSteps.checkCancel (site : PollSite) :
    Within R (checkCancel env site : Program (Sys P) Failure Unit) :=
  .bind steps.framing (steps.poll site) fun _ => .stopIf steps.framing _ _

theorem AttemptSteps.lift {α : Type} (x : Except Failure α) :
    Within R (lift x : Program (Sys P) Failure α) := by
  cases x with
  | ok a => exact .pure steps.framing a
  | error e => exact .stop steps.framing e

theorem AttemptSteps.sendAll : ∀ (outcomes : List (Except Failure Nat)) (remaining : Nat),
    Within R (sendAll env outcomes remaining : Program (Sys P) Failure Unit) := by
  intro outcomes
  induction outcomes with
  | nil =>
      intro remaining
      refine .ite (.pure steps.framing ()) ?_
      exact .bind steps.framing (steps.checkCancel env .send) fun _ => .stop steps.framing _
  | cons outcome rest inductionHypothesis =>
      intro remaining
      refine .ite (.pure steps.framing ()) ?_
      refine .bind steps.framing (steps.checkCancel env .send) fun _ => ?_
      refine .bind steps.framing (steps.lift env _) fun sent => ?_
      exact .bind steps.framing (.stopIf steps.framing _ _) fun _ => inductionHypothesis _

theorem AttemptSteps.readHead : ∀ reads : List HeadRead,
    Within R (readHead env reads : Program (Sys P) Failure Nat) := by
  have polls := steps.checkCancel env .read
  intro reads
  induction reads with
  | nil => exact .bind steps.framing polls fun _ => .stop steps.framing _
  | cons read rest inductionHypothesis =>
      cases read with
      | fail failure => exact .bind steps.framing polls fun _ => .stop steps.framing _
      | eof => exact .bind steps.framing polls fun _ => .stop steps.framing _
      | more => exact .bind steps.framing polls fun _ => inductionHypothesis
      | head code => exact .bind steps.framing polls fun _ => .pure steps.framing _

theorem AttemptSteps.drainBody : ∀ (body : List BodyStep) (bodyEnd : Except Failure Unit),
    Within R (drainBody env body bodyEnd : Program (Sys P) Failure Unit) := by
  intro body
  induction body with
  | nil => exact fun bodyEnd => steps.lift env bodyEnd
  | cons step rest inductionHypothesis =>
      intro bodyEnd
      refine .bind steps.framing (steps.checkCancel env .feed) fun _ => ?_
      refine .bind steps.framing (.forEach steps.framing steps.deliver _) fun _ => ?_
      exact .bind steps.framing (steps.lift env _) fun _ => inductionHypothesis bodyEnd

theorem AttemptSteps.streamBody (script : Attempt) :
    Within R (streamBody env script : Program (Sys P) Failure Unit) := by
  refine .bind steps.framing steps.fresh fun _ => ?_
  refine .bind steps.framing (.attempt (steps.drainBody env _ _)) fun drained => ?_
  split
  · exact .bind steps.framing (steps.emit _ _ _) fun _ => .stop steps.framing _
  · refine .bind steps.framing (.gets steps.framing _) fun parseErr => ?_
    split
    · exact .stop steps.framing _
    · exact steps.emit _ _ _

theorem AttemptSteps.sendRequest (script : Attempt) (url : UrlParts) (req : RequestBytes) :
    Within R (sendRequest env script url req : Program (Sys P) Failure Nat) := by
  have connects : Within R (connect env script : Program (Sys P) Failure Unit) := by
    refine .bind steps.framing (steps.lift env _) fun _ => ?_
    split
    · exact .pure steps.framing _
    · exact .bind steps.framing (steps.emit _ _ _) fun _ => .stop steps.framing _
  refine .bind steps.framing (steps.emit _ _ _) fun _ => ?_
  refine .bind steps.framing connects fun _ => ?_
  refine .bind steps.framing (.gets steps.framing _) fun requestId => ?_
  refine .bind steps.framing (steps.lift env _) fun wire => ?_
  refine .bind steps.framing (steps.sendAll env _ _) fun _ => ?_
  exact steps.readHead env _

theorem AttemptSteps.exchange (script : Attempt) (url : UrlParts) (req : RequestBytes) :
    Within R (exchange env script url req : Program (Sys P) Failure Unit) := by
  refine .bind steps.framing (steps.state _) fun _ => ?_
  refine .bind steps.framing (steps.sendRequest env script url req) fun code => ?_
  unfold receive
  split
  · exact .bind steps.framing (steps.emit _ _ _) fun _ => .stop steps.framing _
  · refine .bind steps.framing (steps.state _) fun _ => ?_
    refine .bind steps.framing (steps.emit _ _ _) fun _ => ?_
    exact steps.streamBody env script

/-- **An attempt keeps what its steps keep.** -/
theorem AttemptSteps.streamCall (tools : List ToolSpec) (budget : Budget) :
    Within R (streamCall env msgs tools budget : Program (Sys P) Failure Unit) := by
  refine .bind steps.framing steps.next fun script => ?_
  refine .bind steps.framing (.stopIf steps.framing _ _) fun _ => ?_
  refine .bind steps.framing (steps.checkCancel env .call) fun _ => ?_
  refine .bind steps.framing (.gets steps.framing _) fun bound => ?_
  split
  · exact .stop steps.framing _
  · refine .bind steps.framing (steps.request tools) fun _ => ?_
    refine .bind steps.framing (steps.lift env _) fun req => ?_
    refine .bind steps.framing (steps.lift env _) fun url => ?_
    refine .bind steps.framing (.stopIf steps.framing _ _) fun _ => ?_
    exact steps.exchange env script url req

theorem AttemptSteps.backoff (decision : Net.RetryDecision) (e : Failure) :
    Within R (backoff env decision e : Program (Sys P) Failure Unit) := by
  have sleeps : ∀ slices : Nat,
      Within R (sleepSlices env slices : Program (Sys P) Failure Unit) := by
    intro slices
    induction slices with
    | zero => exact .pure steps.framing ()
    | succ slices inductionHypothesis =>
        refine .bind steps.framing (steps.poll .backoff) fun seen => ?_
        cases seen with
        | true => exact .pure steps.framing ()
        | false => exact inductionHypothesis
  refine .bind steps.framing (steps.lane _) fun _ => ?_
  refine .bind steps.framing (steps.emit _ _ _) fun _ => ?_
  exact .bind steps.framing (sleeps _) fun _ => steps.lane _

theorem AttemptSteps.judgeAttempt (attempt : Nat) (seed : UInt32) (called : Except Failure Unit) :
    Within R (judgeAttempt env attempt seed called : Program (Sys P) Failure (Option UInt32)) := by
  refine .bind steps.framing (.gets steps.framing _) fun providerErr => ?_
  split
  · exact .bind steps.framing (steps.lift env _) fun _ => .pure steps.framing _
  · refine .bind steps.framing (.stopIf steps.framing _ _) fun _ => ?_
    refine .bind steps.framing (steps.lift env _) fun _ => ?_
    refine .bind steps.framing (.stopIf steps.framing _ _) fun _ => ?_
    exact .bind steps.framing (steps.backoff env _ _) fun _ => .pure steps.framing _

end Steps

/-- **The retry loop keeps what the steps of its attempts keep**, on any messages. -/
theorem AttemptSteps.retryLoop {R : Sys P → Sys P → Prop}
    (steps : ∀ msgs, AttemptSteps env R msgs)
    (attempts : ∀ (state : AgentState) (used : UInt64) (s : Sys P),
      R s { s with log := .attempt state used :: s.log }) (tools : List ToolSpec)
    (budget : Budget) : ∀ (left attempt : Nat) (seed : UInt32),
    Within R (retryLoop env tools budget left attempt seed : Program (Sys P) Failure Unit) := by
  have framing := (steps []).framing
  intro left
  induction left with
  | zero => exact fun _ _ => .stop framing _
  | succ left inductionHypothesis =>
      intro attempt seed
      refine .bind framing ?_ fun next => ?_
      · refine .bind framing ((steps []).checkCancel env .attempt) fun _ => ?_
        refine .bind framing (.gets framing _) fun history => ?_
        refine .bind framing (.gets framing _) fun state => ?_
        refine .bind framing (.gets framing _) fun used => ?_
        refine .bind framing (attempts state used) fun _ => ?_
        refine .bind framing (.attempt ((steps history).streamCall env tools budget)) fun called => ?_
        exact (steps []).judgeAttempt env attempt seed called
      · split
        · exact .pure framing _
        · exact inductionHypothesis _ _

end Opencodepp.Agent
