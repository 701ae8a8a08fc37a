import Opencodepp.Agent.Loop
import Opencodepp.Library.Trace

/-!
# What the quiet steps of a drive leave alone

Most of a drive reports, polls, waits and talks to the network.  Such steps leave the
books of the task alone (the history, the tokens, the result, the files and the gate's
feedback) and stay in the state they were started in; all they leave behind is entries in
the log.  `Quiet A` is that relation, with `A` the class of entries; the
programs made of such steps are `Within` it.  `Calm A` is the same without the state, for
stretches that also make transitions.
-/

set_option autoImplicit false

namespace Opencodepp.Agent

open Opencodepp.Core
open Opencodepp.Library
open Opencodepp.Library.Program
open Opencodepp.Library.Trace
open Opencodepp.Msg
open Opencodepp.Provider

variable {P : Provider} {ε : Type}

/-- The books of a task: what only replies and tools change. -/
structure Books where
  messages : List Message
  tokensUsed : UInt64
  result : DriveResult
  disk : Disk
  feedbackSeen : List Bytes
  abortedByFeedback : Bool

def Sys.books (s : Sys P) : Books :=
  ⟨s.session.messages, s.session.tokensUsed, s.result, s.disk, s.feedbackSeen,
    s.abortedByFeedback⟩

/-- A quiet step, which logs entries of the class `A`. -/
structure Quiet (A : AgentState → Ev → Prop) (s s' : Sys P) : Prop where
  books : s'.books = s.books
  state : s'.session.state = s.session.state
  cancel : s.cancel = true → s'.cancel = true
  log : Extends (A s.session.state) s.log s'.log

namespace Quiet

theorem framing (A : AgentState → Ev → Prop) : Framing (Quiet (P := P) A) where
  refl _ := ⟨rfl, rfl, fun set => set, .refl _ _⟩
  trans first second :=
    ⟨second.books.trans first.books, second.state.trans first.state,
      fun set => second.cancel (first.cancel set),
      first.log.trans (first.state ▸ second.log)⟩

end Quiet

/-- A calm step may also move to another state. -/
structure Calm (A : Ev → Prop) (s s' : Sys P) : Prop where
  books : s'.books = s.books
  cancel : s.cancel = true → s'.cancel = true
  log : Extends A s.log s'.log

namespace Calm

variable {A B : Ev → Prop} {s s' s'' : Sys P}

theorem framing (A : Ev → Prop) : Framing (Calm (P := P) A) where
  refl _ := ⟨rfl, fun set => set, .refl _ _⟩
  trans first second :=
    ⟨second.books.trans first.books, fun set => second.cancel (first.cancel set),
      first.log.trans second.log⟩

theorem trans (first : Calm A s s') (second : Calm A s' s'') : Calm A s s'' :=
  (framing A).trans first second

theorem messages (calm : Calm A s s') : s'.session.messages = s.session.messages :=
  congrArg Books.messages calm.books

theorem tokensUsed (calm : Calm A s s') : s'.session.tokensUsed = s.session.tokensUsed :=
  congrArg Books.tokensUsed calm.books

theorem result (calm : Calm A s s') : s'.result = s.result :=
  congrArg Books.result calm.books

theorem mono (weaker : ∀ e, A e → B e) (calm : Calm A s s') : Calm B s s' :=
  ⟨calm.books, calm.cancel, calm.log.mono weaker⟩

end Calm

theorem Quiet.calm {A : AgentState → Ev → Prop} {B : Ev → Prop} {s s' : Sys P}
    (quiet : Quiet A s s') (weaker : ∀ e, A s.session.state e → B e) : Calm B s s' :=
  ⟨quiet.books, quiet.cancel, quiet.log.mono weaker⟩

/-! ## Primitive steps -/

@[simp] theorem wp_setState (target : AgentState) (Q : Unit → Sys P → Prop)
    (E : ε → Sys P → Prop) (s : Sys P) :
    wp (setState target) Q E s ↔
      Q () { s with
        session.state := nextState s.session.state target
        log := .setState s.session.state target :: s.log } := Iff.rfl

@[simp] theorem wp_setLane (lane : AgentLane) (Q : Unit → Sys P → Prop) (E : ε → Sys P → Prop)
    (s : Sys P) :
    wp (setLane lane) Q E s ↔
      Q () { s with
        session.lane := if laneAllowed s.session.state lane then lane else s.session.lane } :=
  Iff.rfl

@[simp] theorem wp_record (ev : Ev) (Q : Unit → Sys P → Prop) (E : ε → Sys P → Prop)
    (s : Sys P) : wp (record ev) Q E s ↔ Q () { s with log := ev :: s.log } := Iff.rfl

@[simp] theorem wp_pollCancel (env : Env) (site : PollSite) (Q : Bool → Sys P → Prop)
    (E : ε → Sys P → Prop) (s : Sys P) :
    wp (pollCancel env site) Q E s ↔
      Q s.cancel { s with
        cancel := s.cancel || env.world.hostCancels s.count.polls
        count.polls := s.count.polls + 1
        log := .poll site s.cancel :: s.log } := Iff.rfl

theorem wp_lift {α : Type} (x : Except Failure α) (Q : α → Sys P → Prop)
    (E : Failure → Sys P → Prop) (s : Sys P) :
    wp (lift x) Q E s ↔ (∀ a, x = .ok a → Q a s) ∧ (∀ e, x = .error e → E e s) := by
  cases x <;> simp [lift]

section Primitive

variable {A : AgentState → Ev → Prop}

/-- A step that logs nothing and touches neither the books, the state nor the flag. -/
theorem quiet_update {f : Sys P → Sys P} (books : ∀ s, (f s).books = s.books)
    (state : ∀ s, (f s).session.state = s.session.state) (cancel : ∀ s, (f s).cancel = s.cancel)
    (log : ∀ s, (f s).log = s.log) : Within (Quiet A) (.update f : Program (Sys P) ε Unit) :=
  fun s => ⟨books s, state s, fun set => (cancel s).trans set, (log s).symm ▸ .refl _ _⟩

theorem quiet_record {ev : Ev} (class_ : ∀ state, A state ev) :
    Within (Quiet A) (record ev : Program (Sys P) ε Unit) :=
  fun s => ⟨rfl, rfl, fun set => set, .single (class_ _) s.log⟩

theorem quiet_pollCancel (env : Env) {site : PollSite}
    (class_ : ∀ state seen, A state (.poll site seen)) :
    Within (Quiet A) (pollCancel env site : Program (Sys P) ε Bool) :=
  fun s => ⟨rfl, rfl, fun set => by simp [pollCancel, set], .single (class_ _ _) s.log⟩

theorem quiet_emit (env : Env) {phase : String} {detail : Bytes} {status : Nat}
    (class_ : ∀ state lane tokens,
      A state (.emit ⟨state, lane, str phase, detail, tokens, status⟩)) :
    Within (Quiet A) (emit env phase detail status : Program (Sys P) ε Unit) := by
  intro s
  unfold emit
  split
  · exact ⟨rfl, rfl, fun set => by simp [set], .single (class_ _ _ _) s.log⟩
  · exact (Quiet.framing A).refl s

theorem quiet_setLane (lane : AgentLane) :
    Within (Quiet A) (setLane lane : Program (Sys P) ε Unit) :=
  quiet_update (fun _ => rfl) (fun _ => rfl) (fun _ => rfl) (fun _ => rfl)

theorem quiet_beginRequest (env : Env) :
    Within (Quiet A) (beginRequest env : Program (Sys P) ε Unit) :=
  quiet_update (fun _ => rfl) (fun _ => rfl) (fun _ => rfl) (fun _ => rfl)

theorem quiet_nextAttempt (env : Env) :
    Within (Quiet A) (nextAttempt env : Program (Sys P) ε Attempt) :=
  fun s => ⟨rfl, rfl, fun set => set, .refl _ s.log⟩

theorem quiet_memoryTier (env : Env) :
    Within (Quiet A) (memoryTier env : Program (Sys P) ε Bytes) := by
  intro s
  unfold memoryTier
  split
  · exact ⟨rfl, rfl, fun set => set, .refl _ s.log⟩
  · exact (Quiet.framing A).refl s

theorem quiet_lift {α : Type} (x : Except Failure α) :
    Within (Quiet A) (lift x : Program (Sys P) Failure α) := by
  cases x with
  | ok a => exact Within.pure (Quiet.framing A) a
  | error e => exact Within.stop (Quiet.framing A) e

theorem quiet_checkCancel (env : Env) {site : PollSite}
    (class_ : ∀ state seen, A state (.poll site seen)) :
    Within (Quiet A) (checkCancel env site : Program (Sys P) Failure Unit) :=
  .bind (Quiet.framing A) (quiet_pollCancel env class_) fun _ => .stopIf (Quiet.framing A) _ _

/-- A frame changes only the provider's stream and the accumulators. -/
theorem quiet_deliverFrame (frame : StreamFrame) :
    Within (Quiet A) (deliverFrame frame : Program (Sys P) ε Unit) := by
  intro s
  unfold deliverFrame Program.update
  dsimp only
  split
  · exact (Quiet.framing A).refl s
  · split
    · exact ⟨rfl, rfl, fun set => set, .refl _ s.log⟩
    · exact (Quiet.framing A).refl s

theorem quiet_ensureProvider (env : Env) :
    Within (Quiet A) (ensureProvider env : Program (Sys P) Failure P.State) := by
  refine .bind (Quiet.framing A) (.gets (Quiet.framing A) _) fun bound => ?_
  cases bound with
  | some p => exact .pure (Quiet.framing A) p
  | none =>
      refine .ite (.stop (Quiet.framing A) _) ?_
      split
      · exact .stop (Quiet.framing A) _
      · refine .bind (Quiet.framing A) ?_ fun _ => .pure (Quiet.framing A) _
        exact quiet_update (fun _ => rfl) (fun _ => rfl) (fun _ => rfl) (fun _ => rfl)

end Primitive

end Opencodepp.Agent
