import Mathlib.Data.List.Nodup
import Opencodepp.Library.Transition
import Opencodepp.Net.Http

/-!
# The offline queue

Requests that cannot be sent wait in a queue and are replayed, oldest first, when the network
is back.  Sending is a callback that runs the event loop: while it runs, other code may enqueue,
submit, check and drain.  A run is therefore a sequence of actions on the queue together with
the stack of sends that have not returned.

The queue is to lose nothing and to keep the order: a request it has accepted is delivered once
or still pending, and deliveries come in the order of acceptance.  This fails in three ways.  A
request submitted while online is not kept when its send fails; it overtakes the requests that
are waiting; and a drain begun inside a send overtakes the request being sent.
`kept_of_orderly` says that there is no other way.
-/

set_option autoImplicit false

namespace Opencodepp.Net

open Opencodepp.Core
open Opencodepp.Library
open Opencodepp.Provider

/-! ## The queue -/

inductive Connectivity
  | online
  | offline
  | recovering
  deriving Repr, DecidableEq

/-- A request as it is replayed. -/
structure QueueEntry where
  requestId : Bytes
  method : Bytes := str "POST"
  path : Bytes := str "/v1/chat"
  headers : List HttpHeader := []
  body : Bytes := []
  deriving Repr, DecidableEq

structure OfflineQueue (ε : Type) where
  state : Connectivity
  queue : List ε
  maxQueue : Nat
  deriving Repr, DecidableEq

namespace OfflineQueue

variable {ε : Type}

def empty (maxQueue : Nat) : OfflineQueue ε := ⟨.online, [], maxQueue⟩

/-- Another state, and the notification of it. -/
def setState (q : OfflineQueue ε) (c : Connectivity) : OfflineQueue ε × Option Connectivity :=
  if q.state ≠ c then ({ q with state := c }, some c) else (q, none)

/-- What a probe's outcome does. -/
def check (q : OfflineQueue ε) (reachable : Bool) : OfflineQueue ε × Option Connectivity :=
  if reachable then
    match q.state with
    | .offline => q.setState .recovering
    | .recovering => if q.queue.isEmpty then q.setState .online else (q, none)
    | .online => (q, none)
  else q.setState .offline

def enqueue (q : OfflineQueue ε) (e : ε) : Except Failure (OfflineQueue ε) :=
  if q.maxQueue ≤ q.queue.length then .error (.of .eNetOverflow)
  else .ok { q with queue := q.queue ++ [e] }

/-- The head of the drain loop: the next request to send, or the end of the drain. -/
def drainNext (q : OfflineQueue ε) : Option ε × OfflineQueue ε × Option Connectivity :=
  match q.queue with
  | [] => (none, q.setState .online)
  | e :: rest => (some e, { q with queue := rest }, none)

/-- A failed send in the drain loop: the request goes back to the head. -/
def requeue (q : OfflineQueue ε) (e : ε) : OfflineQueue ε × Option Connectivity :=
  setState { q with queue := e :: q.queue } .offline

@[simp] theorem setState_queue (q : OfflineQueue ε) (c : Connectivity) :
    (q.setState c).1.queue = q.queue := by
  unfold setState
  split <;> rfl

@[simp] theorem check_queue (q : OfflineQueue ε) (reachable : Bool) :
    (q.check reachable).1.queue = q.queue := by
  unfold check
  cases reachable with
  | false => simp
  | true =>
      cases q.state with
      | online => rfl
      | offline => simp
      | recovering =>
          simp only [if_true]
          split <;> simp

theorem enqueue_eq_ok {q next : OfflineQueue ε} {e : ε} (accepted : q.enqueue e = .ok next) :
    next.queue = q.queue ++ [e] := by
  unfold enqueue at accepted
  split at accepted
  · cases accepted
  · cases accepted
    rfl

end OfflineQueue

/-! ## Runs -/

namespace Offline

/-- A request, numbered when it is handed over. -/
structure Request (ε : Type) where
  ticket : Nat
  entry : ε
  deriving Repr, DecidableEq

/-- A send that has not returned: of a request submitted while online, or of one that the drain
loop took from the queue. -/
inductive Send (ε : Type)
  | direct (r : Request ε)
  | drained (r : Request ε)
  deriving Repr, DecidableEq

def Send.request {ε : Type} : Send ε → Request ε
  | direct r => r
  | drained r => r

/-- The queue, the sends that have not returned (the innermost first), and what has been accepted
and delivered so far. -/
structure World (ε : Type) where
  q : OfflineQueue (Request ε)
  sends : List (Send ε)
  issued : Nat
  accepted : List (Request ε)
  delivered : List (Request ε)
  deriving Repr, DecidableEq

inductive Action (ε : Type)
  | enqueue (e : ε)
  | submit (e : ε)
  | check (reachable : Bool)
  | drain
  /-- The innermost send returns. -/
  | sent (result : Err)
  deriving Repr, DecidableEq

variable {ε : Type}

namespace World

def start (maxQueue : Nat) : World ε := ⟨.empty maxQueue, [], 0, [], []⟩

/-- The request a call hands over. -/
def next (s : World ε) (e : ε) : Request ε := ⟨s.issued, e⟩

/-- What waits or is being sent. -/
def pending (s : World ε) : List (Request ε) := s.sends.map Send.request ++ s.q.queue

def enqueue (s : World ε) (e : ε) : World ε :=
  match s.q.enqueue (s.next e) with
  | .error _ => { s with issued := s.issued + 1 }
  | .ok q => { s with q, issued := s.issued + 1, accepted := s.accepted ++ [s.next e] }

def submit (s : World ε) (e : ε) : World ε :=
  if s.q.state = .online then
    { s with
      sends := .direct (s.next e) :: s.sends
      issued := s.issued + 1
      accepted := s.accepted ++ [s.next e] }
  else s.enqueue e

/-- The drain loop up to its next send, over the sends below it. -/
def drain (s : World ε) (below : List (Send ε)) : World ε :=
  { s with
    q := s.q.drainNext.2.1
    sends := (s.q.drainNext.1.map Send.drained).toList ++ below }

end World

/-- A send of a submitted request returns; a request that met a full network is not accepted. -/
def World.returnDirect [DecidableEq ε] (s : World ε) (r : Request ε) (below : List (Send ε))
    (result : Err) : World ε :=
  if result = .ok then { s with sends := below, delivered := s.delivered ++ [r] }
  else if result = .eNetOverflow then
    { s with sends := below, accepted := s.accepted.filter (· ≠ r) }
  else { s with sends := below }

/-- A send of the drain loop returns. -/
def World.returnDrained (s : World ε) (r : Request ε) (below : List (Send ε)) (result : Err) :
    World ε :=
  if result = .ok then { s with delivered := s.delivered ++ [r] }.drain below
  else { s with q := (s.q.requeue r).1, sends := below }

def step [DecidableEq ε] (s : World ε) : Action ε → Option (World ε)
  | .enqueue e => some (s.enqueue e)
  | .submit e => some (s.submit e)
  | .check reachable => some { s with q := (s.q.check reachable).1 }
  | .drain => some (s.drain s.sends)
  | .sent result =>
      match s.sends with
      | [] => none
      | .direct r :: below => some (s.returnDirect r below result)
      | .drained r :: below => some (s.returnDrained r below result)

/-! ## Nothing lost, order kept -/

/-- Every accepted request was delivered once or is pending once, and deliveries follow the order
of acceptance. -/
structure World.Kept [DecidableEq ε] (s : World ε) : Prop where
  once : ∀ r ∈ s.accepted,
    (s.delivered.count r = 1 ∧ s.pending.count r = 0) ∨
      (s.delivered.count r = 0 ∧ s.pending.count r = 1)
  order : s.delivered <+: s.accepted

instance [DecidableEq ε] (s : World ε) : Decidable s.Kept :=
  decidable_of_iff
    ((∀ r ∈ s.accepted,
      (s.delivered.count r = 1 ∧ s.pending.count r = 0) ∨
        (s.delivered.count r = 0 ∧ s.pending.count r = 1)) ∧ s.delivered <+: s.accepted)
    ⟨fun kept => ⟨kept.1, kept.2⟩, fun kept => ⟨kept.once, kept.order⟩⟩

/-- The condition on a step: a request is submitted while online only when nothing is pending, its
send returns success (or that the request is not accepted), and a drain takes nothing from the
queue while a send has not returned. -/
def Orderly (s : World ε) : Action ε → Prop
  | .submit _ => s.q.state = .online → s.pending = []
  | .drain => s.sends = [] ∨ s.q.queue = []
  | .sent result =>
      ∀ send ∈ s.sends.head?, send = .direct send.request → result = .ok ∨ result = .eNetOverflow
  | _ => True

instance [DecidableEq ε] : ∀ (s : World ε) (a : Action ε), Decidable (Orderly s a)
  | _, .enqueue _ => isTrue trivial
  | s, .submit _ => inferInstanceAs (Decidable (s.q.state = .online → s.pending = []))
  | _, .check _ => isTrue trivial
  | s, .drain => inferInstanceAs (Decidable (s.sends = [] ∨ s.q.queue = []))
  | s, .sent result =>
      inferInstanceAs (Decidable (∀ send ∈ s.sends.head?, send = .direct send.request →
        result = .ok ∨ result = .eNetOverflow))

/-- What is accepted is what was delivered, then what is pending, in this order. -/
structure World.Ordered (s : World ε) : Prop where
  split : s.accepted = s.delivered ++ s.pending
  single : s.sends.length ≤ 1
  fresh : ∀ r ∈ s.accepted, r.ticket < s.issued
  nodup : s.accepted.Nodup

theorem World.Ordered.kept [DecidableEq ε] {s : World ε} (ordered : s.Ordered) : s.Kept where
  once := by
    intro r member
    have count := List.count_eq_one_of_mem ordered.nodup member
    rw [ordered.split, List.count_append] at count
    omega
  order := ⟨s.pending, ordered.split.symm⟩

section Steps

variable {s : World ε}

/-- The request of a call is new. -/
theorem World.Ordered.next_notMem (ordered : s.Ordered) (e : ε) : s.next e ∉ s.accepted :=
  fun member => Nat.lt_irrefl _ (ordered.fresh _ member)

/-- Accepting the request of a call at the end of what is pending. -/
theorem World.Ordered.accept (ordered : s.Ordered) {e : ε} {q : OfflineQueue (Request ε)}
    {sends : List (Send ε)} (single : sends.length ≤ 1)
    (grown : sends.map Send.request ++ q.queue = s.pending ++ [s.next e]) :
    World.Ordered ⟨q, sends, s.issued + 1, s.accepted ++ [s.next e], s.delivered⟩ where
  split := by
    simp only [World.pending]
    rw [grown, ordered.split, List.append_assoc]
  single := single
  fresh := by
    intro r member
    rcases List.mem_append.mp member with before | isNew
    · exact Nat.lt_succ_of_lt (ordered.fresh r before)
    · rw [List.mem_singleton.mp isNew]
      exact Nat.lt_succ_self _
  nodup := by
    refine List.nodup_append.mpr ⟨ordered.nodup, List.nodup_singleton _, ?_⟩
    rintro r member _ isNew rfl
    rw [List.mem_singleton.mp isNew] at member
    exact ordered.next_notMem e member

/-- A step that leaves the logs alone and keeps what is pending. -/
theorem World.Ordered.of_pending_eq (ordered : s.Ordered) {q : OfflineQueue (Request ε)}
    {sends : List (Send ε)} (single : sends.length ≤ 1)
    (same : sends.map Send.request ++ q.queue = s.pending) :
    World.Ordered ⟨q, sends, s.issued, s.accepted, s.delivered⟩ where
  split := by
    simp only [World.pending]
    rw [same, ordered.split]
  single := single
  fresh := ordered.fresh
  nodup := ordered.nodup

theorem ordered_enqueue (ordered : s.Ordered) (e : ε) : (s.enqueue e).Ordered := by
  unfold World.enqueue
  cases accepted : s.q.enqueue (s.next e) with
  | error f =>
      exact ⟨ordered.split, ordered.single,
        fun r member => Nat.lt_succ_of_lt (ordered.fresh r member), ordered.nodup⟩
  | ok q =>
      refine ordered.accept ordered.single ?_
      rw [OfflineQueue.enqueue_eq_ok accepted, World.pending, List.append_assoc]

theorem ordered_submit (ordered : s.Ordered) (e : ε)
    (idle : s.q.state = .online → s.pending = []) : (s.submit e).Ordered := by
  unfold World.submit
  split
  · next online =>
      have nothing := idle online
      obtain ⟨noSends, noQueue⟩ := List.append_eq_nil_iff.mp nothing
      rw [List.map_eq_nil_iff] at noSends
      refine ordered.accept (by simp [noSends]) ?_
      simp [nothing, noSends, noQueue, Send.request]
  · exact ordered_enqueue ordered e

/-- The drain loop moves the oldest request from the queue to the sends. -/
theorem ordered_drain (ordered : s.Ordered) {below : List (Send ε)}
    (same : below.map Send.request ++ s.q.queue = s.pending)
    (room : below = [] ∨ (s.q.queue = [] ∧ below.length ≤ 1)) : (s.drain below).Ordered := by
  unfold World.drain OfflineQueue.drainNext
  cases queue : s.q.queue with
  | nil =>
      have short : below.length ≤ 1 := by
        rcases room with none | ⟨-, short⟩
        · simp [none]
        · exact short
      refine ordered.of_pending_eq short ?_
      simp only [Option.map_none, Option.toList_none, List.nil_append, OfflineQueue.setState_queue]
      exact same
  | cons r rest =>
      have none : below = [] := by
        rcases room with none | ⟨empty, -⟩
        · exact none
        · simp [queue] at empty
      refine ordered.of_pending_eq (by simp [none]) ?_
      rw [← same, queue, none]
      rfl

/-- The one send of a submitted request returns. -/
theorem ordered_returnDirect [DecidableEq ε] (ordered : s.Ordered) {r : Request ε} {below : List (Send ε)}
    {result : Err} (top : s.sends = .direct r :: below)
    (settled : result = .ok ∨ result = .eNetOverflow) :
    (s.returnDirect r below result).Ordered := by
  have alone : below = [] := by
    have single := ordered.single
    rw [top, List.length_cons] at single
    exact List.length_eq_zero_iff.mp (by omega)
  have split := ordered.split
  rw [World.pending, top, alone] at split
  unfold World.returnDirect
  rcases settled with rfl | rfl
  · rw [if_pos rfl]
    exact ⟨by simpa [World.pending, alone, Send.request] using split, by simp [alone],
      ordered.fresh, ordered.nodup⟩
  · rw [if_neg (by decide), if_pos rfl]
    have shape : s.accepted = s.delivered ++ r :: s.q.queue := by
      simpa [Send.request] using split
    have nodup := ordered.nodup
    rw [shape, List.nodup_middle, List.nodup_cons] at nodup
    have remaining : s.accepted.filter (· ≠ r) = s.delivered ++ s.q.queue := by
      rw [shape, List.filter_append, List.filter_cons_of_neg (by simp), ← List.filter_append,
        List.filter_eq_self]
      intro other member
      simpa using fun same : other = r => nodup.1 (same ▸ member)
    refine ⟨?_, by simp [alone], fun other member => ordered.fresh other ?_, ?_⟩
    · simpa [World.pending, alone] using remaining
    · exact (List.mem_filter.mp member).1
    · simp only [remaining]
      exact nodup.2

/-- The one send of the drain loop returns. -/
theorem ordered_returnDrained (ordered : s.Ordered) {r : Request ε} {below : List (Send ε)}
    {result : Err} (top : s.sends = .drained r :: below) :
    (s.returnDrained r below result).Ordered := by
  have alone : below = [] := by
    have single := ordered.single
    rw [top, List.length_cons] at single
    exact List.length_eq_zero_iff.mp (by omega)
  have split := ordered.split
  rw [World.pending, top, alone] at split
  unfold World.returnDrained
  split
  · have delivered : World.Ordered ⟨s.q, [], s.issued, s.accepted, s.delivered ++ [r]⟩ :=
      ⟨by simpa [World.pending, Send.request] using split, by simp, ordered.fresh, ordered.nodup⟩
    rw [alone]
    exact ordered_drain delivered rfl (.inl rfl)
  · refine ordered.of_pending_eq (by simp [alone]) ?_
    simp [OfflineQueue.requeue, World.pending, top, alone, Send.request]

/-- Every step under the condition keeps the order. -/
theorem ordered_step [DecidableEq ε] {a : Action ε} {next : World ε} (ordered : s.Ordered) (orderly : Orderly s a)
    (stepped : step s a = some next) : next.Ordered := by
  cases a with
  | enqueue e =>
      cases stepped
      exact ordered_enqueue ordered e
  | submit e =>
      cases stepped
      exact ordered_submit ordered e orderly
  | check reachable =>
      cases stepped
      exact ordered.of_pending_eq ordered.single (by simp [World.pending])
  | drain =>
      cases stepped
      refine ordered_drain ordered rfl ?_
      rcases orderly with none | empty
      · exact .inl none
      · exact .inr ⟨empty, ordered.single⟩
  | sent result =>
      unfold step at stepped
      cases sends : s.sends with
      | nil => simp [sends] at stepped
      | cons send below =>
          cases send with
          | direct r =>
              simp only [sends, Option.some.injEq] at stepped
              rw [← stepped]
              exact ordered_returnDirect ordered sends (orderly (.direct r) (by simp [sends]) rfl)
          | drained r =>
              simp only [sends, Option.some.injEq] at stepped
              rw [← stepped]
              exact ordered_returnDrained ordered sends

end Steps

theorem ordered_start (maxQueue : Nat) : (World.start maxQueue : World ε).Ordered :=
  ⟨rfl, by simp [World.start], by simp [World.start], by simp [World.start]⟩

/-- **In a run whose steps fulfil the condition no accepted request is lost or delivered twice,
and deliveries keep the order of acceptance.** -/
theorem kept_of_orderly [DecidableEq ε] {maxQueue : Nat} {actions : List (Action ε)} {s : World ε}
    (orderly : Transition.Meets step Orderly (World.start maxQueue) actions)
    (ran : Transition.run step (World.start maxQueue) actions = some s) : s.Kept :=
  (Transition.run_invariant ordered_step (ordered_start maxQueue) orderly ran).kept

/-- Four requests through an outage and a failing replay, one of them handed over inside a send. -/
def outage : List (Action QueueEntry) :=
  [.enqueue { requestId := str "a" }, .check false, .submit { requestId := str "b" }, .check true,
    .drain, .sent .eNetConnect, .drain, .submit { requestId := str "c" }, .sent .ok, .sent .ok,
    .sent .ok, .submit { requestId := str "d" }, .sent .ok]

theorem kept_of_orderly_outage :
    ∃ s, Transition.run step (World.start 100) outage = some s ∧
      s.delivered.map (fun r => r.entry.requestId) = [str "a", str "b", str "c", str "d"] ∧
      s.Kept := by
  have seen : ((Transition.run step (World.start 100) outage).any fun s =>
      s.delivered.map (fun r => r.entry.requestId) = [str "a", str "b", str "c", str "d"]) =
        true := by
    decide +kernel
  obtain ⟨s, ran, delivered⟩ := Transition.exists_run_of_any seen
  exact ⟨s, ran, by simpa using delivered, kept_of_orderly (by decide +kernel) ran⟩

/-- A request whose direct send fails is gone; one submitted while another waits overtakes it; a
drain inside a send overtakes the request being sent. -/
theorem offline_not_kept :
    (∃ s : World QueueEntry,
      Transition.run step (World.start 100)
        [.submit { requestId := str "a" }, .sent .eNetConnect] = some s ∧ ¬ s.Kept) ∧
    (∃ s : World QueueEntry,
      Transition.run step (World.start 100)
        [.enqueue { requestId := str "a" }, .submit { requestId := str "b" }, .sent .ok] =
          some s ∧ ¬ s.Kept) ∧
    (∃ s : World QueueEntry,
      Transition.run step (World.start 100)
        [.enqueue { requestId := str "a" }, .enqueue { requestId := str "b" }, .drain, .drain,
          .sent .ok] = some s ∧ ¬ s.Kept) := by
  have broken {actions : List (Action QueueEntry)}
      (seen : ((Transition.run step (World.start 100) actions).any fun s => ¬ s.Kept) = true) :
      ∃ s, Transition.run step (World.start 100) actions = some s ∧ ¬ s.Kept := by
    obtain ⟨s, ran, notKept⟩ := Transition.exists_run_of_any seen
    exact ⟨s, ran, by simpa using notKept⟩
  exact ⟨broken (by decide +kernel), broken (by decide +kernel), broken (by decide +kernel)⟩

end Offline

end Opencodepp.Net
