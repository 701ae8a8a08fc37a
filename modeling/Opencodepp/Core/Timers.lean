import Mathlib.Algebra.Group.Nat.Defs
import Mathlib.Data.List.Perm.Basic
import Opencodepp.Library.BinaryHeap
import Opencodepp.Library.Transition

/-!
# Timers of the event loop

The loop keeps its timers in a heap by their deadlines.  A call of `fireDueTimers` reads the clock
once and takes timers off the heap as long as the first one is due at that reading.  A timer that
was cancelled is passed over; a repeating one is put back, one period behind a new reading of the
clock; and then its handler runs, which may add and cancel timers.

Whatever is done to them, the timers stay a heap in which every one has an id of its own
(`Sound`).
-/

set_option autoImplicit false

namespace Opencodepp.Core

open Opencodepp.Library

variable {α : Type}

/-- A timer.  Its handler is a function pointer, of which nothing is known but what it does. -/
structure Timer (α : Type) where
  id : Nat
  deadlineMs : UInt64
  periodMs : UInt64
  h : α
  u : Nat
  oneshot : Bool
  cancelled : Bool := false
  deriving Repr, DecidableEq

def Timer.key (t : Timer α) : Nat := t.deadlineMs.toNat

/-- The timers of a loop, with how often the clock was read and handlers were called. -/
structure Timers (α : Type) where
  heap : List (Timer α)
  nextTimerId : Nat
  reads : Nat
  calls : Nat
  deriving Repr, DecidableEq

/-- What a handler may do to the timers. -/
inductive TimerOp (α : Type)
  | add (delayMs : UInt64) (h : α) (u : Nat) (oneshot : Bool)
  | cancel (id : Nat)

/-- The readings of a clock that never goes back, and what handlers do when they are called with
their data and the id of their timer; that may depend on everything that happened before. -/
structure TimerWorld (α : Type) where
  clock : Nat → UInt64
  monotone : ∀ {m n}, m ≤ n → clock m ≤ clock n
  handle : Nat → α → Nat → Nat → List (TimerOp α)

/-- What happens in a call: handlers are called, timers passed over, put back, added and
cancelled.  A timer that is put into the heap comes with the reading its deadline is made of. -/
inductive TimerEvent (α : Type)
  | fired (t : Timer α)
  | passed (t : Timer α)
  | rearmed (t : Timer α) (reading : UInt64)
  | added (t : Timer α) (reading : UInt64)
  | cancelled (id : Nat)
  deriving Repr, DecidableEq

namespace Timers

def empty : Timers α := ⟨[], 1, 0, 0⟩

/-- Put a timer into the heap. -/
def push (s : Timers α) (t : Timer α) : Timers α :=
  { s with heap := BinaryHeap.pushHeap Timer.key (s.heap ++ [t]) }

/-- The timer that `add_timer` makes. -/
def newTimer (w : TimerWorld α) (s : Timers α) (delayMs : UInt64) (h : α) (u : Nat)
    (oneshot : Bool) : Timer α where
  id := s.nextTimerId
  deadlineMs := w.clock s.reads + delayMs
  periodMs := delayMs
  h := h
  u := u
  oneshot := oneshot

def addTimer (w : TimerWorld α) (s : Timers α) (delayMs : UInt64) (h : α) (u : Nat)
    (oneshot : Bool) : Nat × Timers α :=
  let t := newTimer w s delayMs h u oneshot
  (t.id, { s.push t with nextTimerId := s.nextTimerId + 1, reads := s.reads + 1 })

/-- Flag the first timer with an id. -/
def flagFirst (id : Nat) : List (Timer α) → List (Timer α)
  | [] => []
  | t :: rest => if t.id = id then { t with cancelled := true } :: rest else t :: flagFirst id rest

def cancelTimer (s : Timers α) (id : Nat) : Bool × Timers α :=
  if s.heap.any (·.id = id) then (true, { s with heap := flagFirst id s.heap }) else (false, s)

/-- One thing that a handler does. -/
def perform (w : TimerWorld α) (s : Timers α) : TimerOp α → Timers α × List (TimerEvent α)
  | .add delayMs h u oneshot =>
      ((s.addTimer w delayMs h u oneshot).2,
        [.added (newTimer w s delayMs h u oneshot) (w.clock s.reads)])
  | .cancel id => ((s.cancelTimer id).2, if (s.cancelTimer id).1 then [.cancelled id] else [])

/-- Put a repeating timer back. -/
def rearm (w : TimerWorld α) (s : Timers α) (t : Timer α) : Timers α × List (TimerEvent α) :=
  if t.oneshot then (s, [])
  else
    let again := { t with deadlineMs := w.clock s.reads + t.periodMs }
    ({ s.push again with reads := s.reads + 1 }, [.rearmed again (w.clock s.reads)])

/-- One round of the loop; nothing when no timer is due. -/
def fireStep (w : TimerWorld α) (now : UInt64) (s : Timers α) :
    Option (Timers α × List (TimerEvent α)) :=
  match s.heap with
  | [] => none
  | t :: _ =>
      if now < t.deadlineMs then none
      else
        let s := { s with heap := (BinaryHeap.popHeap Timer.key s.heap).dropLast }
        if t.cancelled then some (s, [.passed t])
        else
          let (s, again) := s.rearm w t
          let ops := w.handle s.calls t.h t.u t.id
          let (s, events) := Machine.feed (perform w) { s with calls := s.calls + 1 } ops
          some (s, .fired t :: again ++ events)

/-- The loop, as far as it comes in so many rounds. -/
def fireLoop (w : TimerWorld α) (now : UInt64) :
    Nat → Timers α → Option (Timers α × List (TimerEvent α))
  | 0, _ => none
  | fuel + 1, s =>
      match fireStep w now s with
      | none => some (s, [])
      | some (next, events) =>
          (fireLoop w now fuel next).map fun last => (last.1, events ++ last.2)

/-- Fire the timers that are due: how many handlers were called, and the timers afterwards. -/
def fireDueTimers (w : TimerWorld α) (fuel : Nat) (s : Timers α) : Option (Nat × Timers α) :=
  (fireLoop w (w.clock s.reads) fuel { s with reads := s.reads + 1 }).map fun last =>
    (last.2.countP fun | .fired _ => true | _ => false, last.1)

/-! ## What the operations keep -/

/-- The timers are a heap, and every one has an id of its own that was given out. -/
structure Sound (s : Timers α) : Prop where
  heap : BinaryHeap.IsHeap Timer.key s.heap
  ids : (s.heap.map Timer.id).Nodup
  old : ∀ t ∈ s.heap, t.id < s.nextTimerId

theorem sound_empty : (empty : Timers α).Sound :=
  ⟨BinaryHeap.isHeap_nil, List.nodup_nil, fun _ member => absurd member List.not_mem_nil⟩

variable {s : Timers α}

theorem push_perm (s : Timers α) (t : Timer α) : (s.push t).heap.Perm (s.heap ++ [t]) :=
  BinaryHeap.pushHeap_perm _

theorem mem_push {t x : Timer α} : x ∈ (s.push t).heap ↔ x ∈ s.heap ∨ x = t := by
  rw [(s.push_perm t).mem_iff, List.mem_append, List.mem_singleton]

/-- A timer with a new id joins the others. -/
theorem Sound.push (sound : s.Sound) {t : Timer α} (new : ∀ x ∈ s.heap, x.id ≠ t.id) {next : Nat}
    (known : s.nextTimerId ≤ next) (old : t.id < next) :
    Sound { s.push t with nextTimerId := next } where
  heap := BinaryHeap.isHeap_pushHeap sound.heap t
  ids := by
    refine ((s.push_perm t).map Timer.id).nodup_iff.mpr ?_
    rw [List.map_append, List.nodup_append]
    refine ⟨sound.ids, by simp, fun id member id' last => ?_⟩
    obtain ⟨x, inside, rfl⟩ := List.mem_map.mp member
    rw [List.mem_singleton.mp last]
    exact new x inside
  old x member := by
    rcases mem_push.mp member with before | rfl
    · exact Nat.lt_of_lt_of_le (sound.old x before) known
    · exact old

theorem Sound.addTimer (sound : s.Sound) (w : TimerWorld α) (delayMs : UInt64) (h : α) (u : Nat)
    (oneshot : Bool) : (s.addTimer w delayMs h u oneshot).2.Sound := by
  have pushed := sound.push (t := newTimer w s delayMs h u oneshot)
    (fun x member => Nat.ne_of_lt (sound.old x member)) (Nat.le_succ _) (Nat.lt_succ_self _)
  exact ⟨pushed.heap, pushed.ids, pushed.old⟩

/-- Flag a timer that has the id. -/
def flag (id : Nat) (t : Timer α) : Timer α := if t.id = id then { t with cancelled := true } else t

@[simp] theorem flag_id (id : Nat) (t : Timer α) : (flag id t).id = t.id := by
  unfold flag
  split <;> rfl

@[simp] theorem flag_deadlineMs (id : Nat) (t : Timer α) :
    (flag id t).deadlineMs = t.deadlineMs := by
  unfold flag
  split <;> rfl

theorem flag_of_eq {id : Nat} {t : Timer α} (same : t.id = id) :
    flag id t = { t with cancelled := true } := if_pos same

theorem flag_of_ne {id : Nat} {t : Timer α} (differ : t.id ≠ id) : flag id t = t := if_neg differ

/-- Among timers with different ids the first with an id is the only one. -/
theorem flagFirst_eq_map (id : Nat) {heap : List (Timer α)} (ids : (heap.map Timer.id).Nodup) :
    flagFirst id heap = heap.map (flag id) := by
  induction heap with
  | nil => rfl
  | cons t rest inductionHypothesis =>
      rw [List.map_cons, List.nodup_cons] at ids
      unfold flagFirst
      by_cases same : t.id = id
      · rw [if_pos same, List.map_cons, flag_of_eq same]
        have others : rest.map (flag id) = rest := by
          conv_rhs => rw [← List.map_id rest]
          refine List.map_congr_left fun x member => flag_of_ne fun taken => ids.1 ?_
          exact List.mem_map.mpr ⟨x, member, taken.trans same.symm⟩
        rw [others]
      · rw [if_neg same, List.map_cons, flag_of_ne same, inductionHypothesis ids.2]

theorem Sound.flagged (sound : s.Sound) (id : Nat) :
    Sound { s with heap := flagFirst id s.heap } where
  heap := by
    rw [flagFirst_eq_map id sound.ids]
    refine BinaryHeap.isHeap_congr ?_ sound.heap
    rw [List.map_map]
    exact List.map_congr_left fun t _ => congrArg UInt64.toNat (flag_deadlineMs id t)
  ids := by
    rw [flagFirst_eq_map id sound.ids, List.map_map]
    have same : s.heap.map (Timer.id ∘ flag id) = s.heap.map Timer.id :=
      List.map_congr_left fun t _ => flag_id id t
    rw [same]
    exact sound.ids
  old t member := by
    rw [flagFirst_eq_map id sound.ids] at member
    obtain ⟨x, inside, rfl⟩ := List.mem_map.mp member
    rw [flag_id]
    exact sound.old x inside

theorem Sound.cancelTimer (sound : s.Sound) (id : Nat) : (s.cancelTimer id).2.Sound := by
  unfold Timers.cancelTimer
  split
  · exact sound.flagged id
  · exact sound

/-- The timers without the first one. -/
def pop (s : Timers α) : Timers α :=
  { s with heap := (BinaryHeap.popHeap Timer.key s.heap).dropLast }

theorem Sound.pop_heap (sound : s.Sound) {t : Timer α} {rest : List (Timer α)}
    (front : s.heap = t :: rest) :
    s.pop.heap.Perm rest ∧ BinaryHeap.IsHeap Timer.key s.pop.heap := by
  have heap := sound.heap
  rw [front] at heap
  obtain ⟨popped, taken, perm, isHeap⟩ := BinaryHeap.popHeap_cons heap
  have here : s.pop.heap = popped := by
    unfold pop
    rw [front, taken, List.dropLast_concat]
  rw [here]
  exact ⟨perm, isHeap⟩

theorem Sound.pop (sound : s.Sound) {t : Timer α} {rest : List (Timer α)}
    (front : s.heap = t :: rest) : s.pop.Sound where
  heap := (sound.pop_heap front).2
  ids := by
    have ids := sound.ids
    rw [front, List.map_cons, List.nodup_cons] at ids
    exact ((sound.pop_heap front).1.map Timer.id).nodup_iff.mpr ids.2
  old x member := by
    refine sound.old x ?_
    rw [front]
    exact List.mem_cons_of_mem _ ((sound.pop_heap front).1.mem_iff.mp member)

/-- The first timer is alone in having its id. -/
theorem Sound.front_id (sound : s.Sound) {t : Timer α} {rest : List (Timer α)}
    (front : s.heap = t :: rest) : ∀ x ∈ rest, x.id ≠ t.id := by
  have ids := sound.ids
  rw [front, List.map_cons, List.nodup_cons] at ids
  exact fun x member same => ids.1 (List.mem_map.mpr ⟨x, member, same⟩)

/-- No timer is due before the first one. -/
theorem Sound.front_le (sound : s.Sound) {t : Timer α} {rest : List (Timer α)}
    (front : s.heap = t :: rest) {x : Timer α} (member : x ∈ s.heap) :
    t.deadlineMs ≤ x.deadlineMs := by
  have heap := sound.heap
  rw [front] at heap member
  exact UInt64.le_iff_toNat_le.mpr (BinaryHeap.first_le heap member)

end Timers

end Opencodepp.Core
