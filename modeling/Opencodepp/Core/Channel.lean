import Opencodepp.Library.Cyclic

/-!
# Channels between threads

A channel is a bounded ring of messages.  Every operation holds the lock of the channel for its
whole length, so that operations of several threads happen one after the other in some order.

The ring is a window of its cells, and every operation does to the window what a bounded queue
does to its items (`perform_refines`).  In any order of operations the popped messages, the
dropped ones and those still there are the accepted ones in order, and it takes messages until it
is closed or dropped (`messages_in_order`).
-/

set_option autoImplicit false

namespace Opencodepp.Core

open Opencodepp.Library

/-- A message; its data is borrowed from the producer. -/
structure ChannelMessage where
  tag : UInt32 := 0
  len : UInt32 := 0
  data : Nat := 0
  deriving Repr, DecidableEq

/-- The operations of a channel.  A hook to wake the consumer up is known by its context. -/
inductive ChannelOp
  | tryPush (m : ChannelMessage)
  | tryPop
  | close
  | drop
  | setWakeup (hook : Option Nat)
  deriving Repr, DecidableEq

/-- What an operation returns; a push that succeeds calls the hook. -/
inductive ChannelReply
  | pushed (woken : Option Nat)
  | refused
  | popped (m : ChannelMessage)
  | empty
  | closed
  | done
  deriving Repr, DecidableEq

/-! ## The ring -/

structure Channel where
  cap : Nat
  ring : List ChannelMessage
  head : Nat := 0
  tail : Nat := 0
  count : Nat := 0
  closed : Bool := false
  wake : Option Nat := none
  deriving Repr, DecidableEq

namespace Channel

/-- A channel has room for one message at least. -/
def make (capacity : Nat) : Channel :=
  let cap := if capacity = 0 then 1 else capacity
  { cap, ring := List.replicate cap {} }

variable (c : Channel)

def full : Bool := c.count = c.cap

def tryPush (m : ChannelMessage) : ChannelReply × Channel :=
  if c.closed || c.full then (.refused, c)
  else
    (.pushed c.wake,
      { c with
        ring := c.ring.set c.tail m
        tail := (c.tail + 1) % c.cap
        count := c.count + 1 })

def tryPop : ChannelReply × Channel :=
  if c.count = 0 then (if c.closed then .closed else .empty, c)
  else
    (.popped (c.ring.getD c.head {}),
      { c with head := (c.head + 1) % c.cap, count := c.count - 1 })

/-- An empty ring starts at its first cell again. -/
def close : Channel :=
  if c.count = 0 then { c with closed := true, head := 0, tail := 0 }
  else { c with closed := true }

def drop : Channel := { c with count := 0, head := 0, tail := 0, closed := true }

def perform : ChannelOp → ChannelReply × Channel
  | .tryPush m => c.tryPush m
  | .tryPop => c.tryPop
  | .close => (.done, c.close)
  | .drop => (.done, c.drop)
  | .setWakeup hook => (.done, { c with wake := hook })

end Channel

/-! ## The queue -/

/-- What a channel is for: a bounded queue that can be closed. -/
structure Queue where
  cap : Nat
  items : List ChannelMessage
  closed : Bool
  wake : Option Nat
  deriving Repr, DecidableEq

namespace Queue

def tryPush (q : Queue) (m : ChannelMessage) : ChannelReply × Queue :=
  if q.closed ∨ q.items.length = q.cap then (.refused, q)
  else (.pushed q.wake, { q with items := q.items ++ [m] })

def tryPop (q : Queue) : ChannelReply × Queue :=
  match q.items with
  | [] => (if q.closed then .closed else .empty, q)
  | m :: rest => (.popped m, { q with items := rest })

def perform (q : Queue) : ChannelOp → ChannelReply × Queue
  | .tryPush m => q.tryPush m
  | .tryPop => q.tryPop
  | .close => (.done, { q with closed := true })
  | .drop => (.done, { q with items := [], closed := true })
  | .setWakeup hook => (.done, { q with wake := hook })

variable {q : Queue}

theorem tryPop_nil (nothing : q.items = []) :
    q.tryPop = (if q.closed then .closed else .empty, q) := by
  unfold tryPop
  rw [nothing]

theorem tryPop_cons {m : ChannelMessage} {rest : List ChannelMessage}
    (listed : q.items = m :: rest) : q.tryPop = (.popped m, { q with items := rest }) := by
  unfold tryPop
  rw [listed]

end Queue

namespace Channel

/-- The messages in a channel, the next one to be popped first. -/
def items (c : Channel) : List ChannelMessage := Cyclic.window c.ring c.head c.count

def queue (c : Channel) : Queue := ⟨c.cap, c.items, c.closed, c.wake⟩

/-- The cells of the ring are as many as the capacity, and the next one to be written is the one
behind the messages. -/
structure Sound (c : Channel) : Prop where
  some_ : 0 < c.cap
  cells : c.ring.length = c.cap
  head : c.head < c.cap
  tail : c.tail = (c.head + c.count) % c.cap
  count : c.count ≤ c.cap

theorem sound_make (capacity : Nat) : Sound (make capacity) := by
  have some_ : 0 < if capacity = 0 then 1 else capacity := by
    split <;> omega
  exact ⟨some_, List.length_replicate, some_, (Nat.zero_mod _).symm, Nat.zero_le _⟩

theorem items_make (capacity : Nat) : (make capacity).items = [] := Cyclic.window_zero

variable {c : Channel}

theorem Sound.length_items (sound : Sound c) : c.items.length = c.count :=
  Cyclic.length_window (sound.count.trans_eq sound.cells.symm)

/-- A push that finds room writes behind the messages. -/
theorem Sound.push (sound : Sound c) (m : ChannelMessage) :
    (c.tryPush m).1 = (c.queue.tryPush m).1 ∧ (c.tryPush m).2.queue = (c.queue.tryPush m).2 ∧
      Sound (c.tryPush m).2 := by
  have condition : (c.closed || c.full) = true ↔
      c.queue.closed = true ∨ c.queue.items.length = c.queue.cap := by
    show _ ↔ c.closed = true ∨ c.items.length = c.cap
    rw [sound.length_items, Bool.or_eq_true, full, decide_eq_true_iff]
  unfold tryPush Queue.tryPush
  by_cases refused : (c.closed || c.full) = true
  · rw [if_pos refused, if_pos (condition.mp refused)]
    exact ⟨rfl, rfl, sound⟩
  · rw [if_neg refused, if_neg fun blocked => refused (condition.mpr blocked)]
    have room : c.count < c.cap := by
      refine Nat.lt_of_le_of_ne sound.count fun same => refused ?_
      rw [full, same]
      simp
    have written : Cyclic.window (c.ring.set c.tail m) c.head (c.count + 1) =
        c.items ++ [m] := by
      rw [sound.tail, ← sound.cells]
      exact Cyclic.window_write m (room.trans_eq sound.cells.symm)
    refine ⟨rfl, ?_, ?_⟩
    · show (⟨_, Cyclic.window (c.ring.set c.tail m) c.head (c.count + 1), _, _⟩ : Queue) = _
      rw [written]
      rfl
    · refine ⟨sound.some_, ?_, sound.head, ?_, room⟩
      · show (c.ring.set c.tail m).length = c.cap
        rw [List.length_set, sound.cells]
      · show (c.tail + 1) % c.cap = (c.head + (c.count + 1)) % c.cap
        rw [sound.tail, Nat.mod_add_mod, Nat.add_assoc]

/-- A pop reads the first message. -/
theorem Sound.pop (sound : Sound c) :
    c.tryPop.1 = c.queue.tryPop.1 ∧ c.tryPop.2.queue = c.queue.tryPop.2 ∧ Sound c.tryPop.2 := by
  unfold tryPop
  by_cases nothing : c.count = 0
  · have noItems : c.queue.items = [] := by
      show Cyclic.window c.ring c.head c.count = []
      rw [nothing, Cyclic.window_zero]
    rw [if_pos nothing, Queue.tryPop_nil noItems]
    exact ⟨rfl, rfl, sound⟩
  · obtain ⟨less, same⟩ := Nat.exists_eq_succ_of_ne_zero nothing
    have bound := sound.count
    obtain ⟨x, first, rest⟩ := @Cyclic.window_read _ c.ring _ _
      (sound.head.trans_eq sound.cells.symm) (show less < c.ring.length by rw [sound.cells]; omega)
    rw [sound.cells] at rest
    have listed : c.queue.items = x :: Cyclic.window c.ring ((c.head + 1) % c.cap) less := by
      show Cyclic.window c.ring c.head c.count = _
      rw [same]
      exact rest
    rw [if_neg nothing, Queue.tryPop_cons listed]
    refine ⟨?_, ?_, ?_⟩
    · show ChannelReply.popped (c.ring.getD c.head {}) = .popped x
      rw [List.getD_eq_getElem?_getD, first]
      rfl
    · show (⟨_, Cyclic.window c.ring ((c.head + 1) % c.cap) (c.count - 1), _, _⟩ : Queue) = _
      rw [same]
      rfl
    · refine ⟨sound.some_, sound.cells, Nat.mod_lt _ sound.some_, ?_, ?_⟩
      · show c.tail = ((c.head + 1) % c.cap + (c.count - 1)) % c.cap
        rw [sound.tail, Nat.mod_add_mod]
        congr 1
        omega
      · show c.count - 1 ≤ c.cap
        omega

/-- **Every operation does to the messages what the queue does to its items.** -/
theorem perform_refines (sound : Sound c) (op : ChannelOp) :
    (c.perform op).1 = (c.queue.perform op).1 ∧
      (c.perform op).2.queue = (c.queue.perform op).2 ∧ Sound (c.perform op).2 := by
  cases op with
  | tryPush m => exact sound.push m
  | tryPop => exact sound.pop
  | close =>
      refine ⟨rfl, ?_, ?_⟩
      · show c.close.queue = { c.queue with closed := true }
        unfold close
        split
        · next nothing =>
            show (⟨c.cap, Cyclic.window c.ring 0 c.count, true, c.wake⟩ : Queue) =
              ⟨c.cap, Cyclic.window c.ring c.head c.count, true, c.wake⟩
            rw [nothing, Cyclic.window_zero, Cyclic.window_zero]
        · rfl
      · show Sound c.close
        unfold close
        split
        · next nothing =>
            refine ⟨sound.some_, sound.cells, sound.some_, ?_, sound.count⟩
            show 0 = (0 + c.count) % c.cap
            rw [nothing, Nat.zero_mod]
        · exact ⟨sound.some_, sound.cells, sound.head, sound.tail, sound.count⟩
  | drop =>
      exact ⟨rfl, rfl, sound.some_, sound.cells, sound.some_, (Nat.zero_mod _).symm,
        Nat.zero_le _⟩
  | setWakeup hook => exact ⟨rfl, rfl, sound.some_, sound.cells, sound.head, sound.tail, sound.count⟩

end Channel

/-! ## Histories -/

/-- A channel with the messages it has accepted, those that were popped, and those that a drop
has thrown away. -/
structure ChannelHistory where
  channel : Channel
  accepted : List ChannelMessage
  popped : List ChannelMessage
  dropped : List ChannelMessage

namespace ChannelHistory

def start (capacity : Nat) : ChannelHistory := ⟨.make capacity, [], [], []⟩

/-- The message an operation adds to the accepted ones. -/
def accepts : ChannelOp → ChannelReply → List ChannelMessage
  | .tryPush m, .pushed _ => [m]
  | _, _ => []

/-- The message a reply hands out. -/
def pops : ChannelReply → List ChannelMessage
  | .popped m => [m]
  | _ => []

/-- The messages an operation throws away. -/
def drops (c : Channel) : ChannelOp → List ChannelMessage
  | .drop => c.items
  | _ => []

def step (h : ChannelHistory) (op : ChannelOp) : ChannelHistory :=
  { channel := (h.channel.perform op).2
    accepted := h.accepted ++ accepts op (h.channel.perform op).1
    popped := h.popped ++ pops (h.channel.perform op).1
    dropped := h.dropped ++ drops h.channel op }

/-- Operations of any threads, in the order in which they got the lock. -/
def run (capacity : Nat) (ops : List ChannelOp) : ChannelHistory := ops.foldl step (start capacity)

/-- The accepted messages are the popped ones, the dropped ones and those still there, in this
order; once messages were dropped the channel is closed and empty. -/
structure Ordered (h : ChannelHistory) : Prop where
  sound : h.channel.Sound
  order : h.accepted = h.popped ++ h.dropped ++ h.channel.items
  over_ : h.dropped ≠ [] → h.channel.closed = true ∧ h.channel.items = []

theorem ordered_start (capacity : Nat) : Ordered (start capacity) where
  sound := Channel.sound_make capacity
  order := (Channel.items_make capacity).symm
  over_ impossible := absurd rfl impossible

variable {h : ChannelHistory}

/-- The first part of a step: the messages stay in order. -/
theorem Ordered.order_step (ordered : Ordered h) (op : ChannelOp) :
    h.accepted ++ accepts op (h.channel.queue.perform op).1 =
      h.popped ++ pops (h.channel.queue.perform op).1 ++ (h.dropped ++ drops h.channel op) ++
        (h.channel.queue.perform op).2.items := by
  have order := ordered.order
  cases op with
  | tryPush m =>
      show h.accepted ++ accepts (.tryPush m) (h.channel.queue.tryPush m).1 =
        h.popped ++ pops (h.channel.queue.tryPush m).1 ++ (h.dropped ++ []) ++
          (h.channel.queue.tryPush m).2.items
      unfold Queue.tryPush
      split
      · show h.accepted ++ [] = h.popped ++ [] ++ (h.dropped ++ []) ++ h.channel.items
        simpa using order
      · show h.accepted ++ [m] = h.popped ++ [] ++ (h.dropped ++ []) ++ (h.channel.items ++ [m])
        rw [order]
        simp
  | tryPop =>
      show h.accepted ++ [] = h.popped ++ pops h.channel.queue.tryPop.1 ++ (h.dropped ++ []) ++
        h.channel.queue.tryPop.2.items
      cases there : h.channel.queue.items with
      | nil =>
          rw [Queue.tryPop_nil there]
          have nothing : pops (if h.channel.queue.closed then .closed else .empty) = [] := by
            split <;> rfl
          show h.accepted ++ [] = h.popped ++ pops (if h.channel.queue.closed then .closed
            else .empty) ++ (h.dropped ++ []) ++ h.channel.items
          rw [nothing, order]
          simp
      | cons m rest =>
          have listed : h.channel.items = m :: rest := there
          -- after a drop there is nothing to pop
          have none_ : h.dropped = [] := by
            by_contra some_
            rw [(ordered.over_ some_).2] at listed
            cases listed
          rw [Queue.tryPop_cons there, order, listed, none_]
          simp [pops]
  | close =>
      show h.accepted ++ [] = h.popped ++ [] ++ (h.dropped ++ []) ++ h.channel.items
      simpa using order
  | drop =>
      show h.accepted ++ [] = h.popped ++ [] ++ (h.dropped ++ h.channel.items) ++ []
      simpa using order
  | setWakeup hook =>
      show h.accepted ++ [] = h.popped ++ [] ++ (h.dropped ++ []) ++ h.channel.items
      simpa using order

/-- The second part of a step: after a drop the channel stays closed and empty. -/
theorem Ordered.over_step (ordered : Ordered h) (op : ChannelOp)
    (some_ : h.dropped ++ drops h.channel op ≠ []) :
    (h.channel.queue.perform op).2.closed = true ∧ (h.channel.queue.perform op).2.items = [] := by
  have ending (none_ : drops h.channel op = []) :
      h.channel.queue.closed = true ∧ h.channel.queue.items = [] := by
    rw [none_, List.append_nil] at some_
    exact ordered.over_ some_
  cases op with
  | tryPush m =>
      obtain ⟨closed, nothing⟩ := ending rfl
      show (h.channel.queue.tryPush m).2.closed = true ∧ (h.channel.queue.tryPush m).2.items = []
      unfold Queue.tryPush
      rw [if_pos (.inl closed)]
      exact ⟨closed, nothing⟩
  | tryPop =>
      obtain ⟨closed, nothing⟩ := ending rfl
      show h.channel.queue.tryPop.2.closed = true ∧ h.channel.queue.tryPop.2.items = []
      rw [Queue.tryPop_nil nothing]
      exact ⟨closed, nothing⟩
  | close => exact ⟨rfl, (ending rfl).2⟩
  | drop => exact ⟨rfl, rfl⟩
  | setWakeup hook => exact ending rfl

/-- **Every operation keeps the messages in order.** -/
theorem Ordered.step (ordered : Ordered h) (op : ChannelOp) : Ordered (h.step op) := by
  obtain ⟨reply, queue, sound⟩ := Channel.perform_refines ordered.sound op
  have items : (h.channel.perform op).2.items = (h.channel.queue.perform op).2.items :=
    congrArg Queue.items queue
  have closed : (h.channel.perform op).2.closed = (h.channel.queue.perform op).2.closed :=
    congrArg Queue.closed queue
  refine ⟨sound, ?_, fun some_ => ?_⟩
  · show h.accepted ++ accepts op (h.channel.perform op).1 =
      h.popped ++ pops (h.channel.perform op).1 ++ (h.dropped ++ drops h.channel op) ++
        (h.channel.perform op).2.items
    rw [reply, items]
    exact ordered.order_step op
  · show (h.channel.perform op).2.closed = true ∧ (h.channel.perform op).2.items = []
    rw [closed, items]
    exact ordered.over_step op some_

theorem ordered_run (capacity : Nat) (ops : List ChannelOp) : Ordered (run capacity ops) := by
  unfold run
  induction ops using List.reverseRecOn with
  | nil => exact ordered_start capacity
  | append_singleton earlier op inductionHypothesis =>
      rw [List.foldl_append]
      exact inductionHypothesis.step op

/-- Only a drop drops messages. -/
theorem dropped_run {capacity : Nat} {ops : List ChannelOp} (never : .drop ∉ ops) :
    (run capacity ops).dropped = [] := by
  unfold run
  induction ops using List.reverseRecOn with
  | nil => rfl
  | append_singleton earlier op inductionHypothesis =>
      rw [List.mem_append, List.mem_singleton, not_or] at never
      rw [List.foldl_append]
      have nothing : ∀ c, drops c op = [] := by
        intro c
        cases op with
        | drop => exact absurd rfl never.2
        | tryPush | tryPop | close | setWakeup => rfl
      show (earlier.foldl step (start capacity)).dropped ++ drops _ op = []
      rw [nothing, inductionHypothesis never.1]
      rfl

/-- What a channel promises about its messages, after a history. -/
structure Delivers (h : ChannelHistory) : Prop where
  popped : h.popped <+: h.accepted
  atMost : h.channel.count ≤ h.channel.cap
  counted : h.channel.items.length = h.channel.count
  push : ∀ m, (∃ woken, (h.channel.tryPush m).1 = .pushed woken) ↔
    h.channel.full = false ∧ h.channel.closed = false
  finished : h.channel.tryPop.1 = .closed →
    h.channel.closed = true ∧ h.accepted = h.popped ++ h.dropped

theorem Ordered.delivers (ordered : Ordered h) : Delivers h where
  popped := by
    rw [ordered.order, List.append_assoc]
    exact List.prefix_append _ _
  atMost := ordered.sound.count
  counted := ordered.sound.length_items
  push m := by
    unfold Channel.tryPush
    cases closed : h.channel.closed <;> cases full : h.channel.full <;> simp
  finished ended := by
    rw [ordered.sound.pop.1] at ended
    cases there : h.channel.queue.items with
    | nil =>
        have nothing : h.channel.items = [] := there
        rw [Queue.tryPop_nil there] at ended
        dsimp only at ended
        split at ended
        · next isClosed =>
            refine ⟨isClosed, ?_⟩
            rw [ordered.order, nothing, List.append_nil]
        · cases ended
    | cons m rest =>
        rw [Queue.tryPop_cons there] at ended
        cases ended

/-- An operation that closes the channel. -/
def Closes (op : ChannelOp) : Prop := op = .close ∨ op = .drop

/-- Every operation keeps the capacity, and the channel is closed behind it if it was, or if the
operation closes it. -/
theorem closed_perform (c : Channel) (op : ChannelOp) :
    (c.perform op).2.cap = c.cap ∧
      ((c.perform op).2.closed = true ↔ c.closed = true ∨ Closes op) := by
  cases op with
  | tryPush m =>
      show (c.tryPush m).2.cap = c.cap ∧ ((c.tryPush m).2.closed = true ↔ _)
      unfold Channel.tryPush
      split <;> simp [Closes]
  | tryPop =>
      show c.tryPop.2.cap = c.cap ∧ (c.tryPop.2.closed = true ↔ _)
      unfold Channel.tryPop
      split <;> simp [Closes]
  | close =>
      show c.close.cap = c.cap ∧ (c.close.closed = true ↔ _)
      unfold Channel.close
      split <;> simp [Closes]
  | drop => exact ⟨rfl, fun _ => .inr (.inr rfl), fun _ => rfl⟩
  | setWakeup hook =>
      refine ⟨rfl, Iff.symm (or_iff_left ?_)⟩
      rintro (close | drop) <;> contradiction

/-- A channel keeps its capacity, and it is closed if and only if it was closed or dropped. -/
theorem closed_run (capacity : Nat) (ops : List ChannelOp) :
    (run capacity ops).channel.cap = (Channel.make capacity).cap ∧
      ((run capacity ops).channel.closed = true ↔ .close ∈ ops ∨ .drop ∈ ops) := by
  unfold run
  induction ops using List.reverseRecOn with
  | nil => exact ⟨rfl, by simp [start, Channel.make]⟩
  | append_singleton earlier op inductionHypothesis =>
      obtain ⟨cap, closed⟩ := closed_perform (earlier.foldl step (start capacity)).channel op
      rw [List.foldl_append]
      refine ⟨cap.trans inductionHypothesis.1, closed.trans ?_⟩
      rw [inductionHypothesis.2, List.mem_append, List.mem_append, List.mem_singleton,
        List.mem_singleton, Closes, eq_comm (a := op), eq_comm (a := op)]
      tauto

/-- **No message is lost, repeated or overtaken.**  Whatever the order of operations, the popped
messages are the first ones accepted, and while nothing was dropped the others are still there;
and the channel takes messages until it is closed or dropped, and none from then on. -/
theorem messages_in_order (capacity : Nat) (ops : List ChannelOp) :
    Delivers (run capacity ops) ∧
      (.drop ∉ ops →
        (run capacity ops).accepted =
          (run capacity ops).popped ++ (run capacity ops).channel.items) ∧
      ((run capacity ops).channel.closed = true ↔ .close ∈ ops ∨ .drop ∈ ops) ∧
      (run capacity ops).channel.cap = max capacity 1 ∧
      ((run capacity ops).channel.full = true ↔
        (run capacity ops).channel.items.length = (run capacity ops).channel.cap) := by
  have ordered := ordered_run capacity ops
  obtain ⟨cap, closed⟩ := closed_run capacity ops
  refine ⟨ordered.delivers, fun never => ?_, closed, cap.trans ?_, ?_⟩
  · rw [ordered.order, dropped_run never, List.append_nil]
  · show (if capacity = 0 then 1 else capacity) = max capacity 1
    split <;> omega
  · rw [ordered.sound.length_items, Channel.full, decide_eq_true_iff]

/-- A ring of two cells that is gone round. -/
example :
    let m (n : UInt32) : ChannelMessage := ⟨n, 0, 0⟩
    let h := run 2 [.tryPush (m 1), .tryPush (m 2), .tryPush (m 3), .tryPop, .tryPush (m 4), .tryPop]
    h.accepted = [m 1, m 2, m 4] ∧ h.popped = [m 1, m 2] ∧ h.channel.items = [m 4] := by
  decide

end ChannelHistory

end Opencodepp.Core
