import Opencodepp.Core.EventLoop

/-!
# Tasks over the event loop

Tasks are coroutines that run on the thread of the loop.  A task that awaits a descriptor
registers it and is suspended; the event removes the registration and resumes the task, and
cancelling the task removes it too, by way of the destructor of the await.

When a descriptor cannot be registered, the task goes on at once and the await is destroyed, and
its destructor removes the registration of the descriptor all the same.  If another task waits for
it, that registration was not its own (`undisturbed_iff_exclusive`).
-/

set_option autoImplicit false

namespace Opencodepp.Core

open Opencodepp.Library

/-- The await that a task is suspended on. -/
structure Awaiter where
  id : Nat
  fd : Int
  deriving Repr, DecidableEq

inductive TaskState
  | running
  | onFd (a : Awaiter)
  | onTimer
  deriving Repr, DecidableEq

/-- An await removes a registration, which some await has made. -/
structure Removal where
  awaiter : Nat
  owner : Nat
  deriving Repr, DecidableEq

/-- The scheduler: the tasks with their states, and those that are being resumed, the innermost
first.  The handlers of the loop are awaits. -/
structure TaskScheduler where
  loop : EventLoop Nat
  tasks : Nat → Option TaskState
  resumed : List Nat
  nextId : Nat
  nextAwaiter : Nat
  removals : List Removal

/-- What happens.  The task that is resumed last spawns, awaits or completes; events and timers
resume suspended tasks, and any suspended task can be cancelled. -/
inductive TaskAction
  | spawn
  | awaitReadable (fd : Int) (interest : UInt32) (accepted : Bool)
  | awaitTimer (ms : Nat)
  | complete
  | event (task : Nat)
  | timer (task : Nat)
  | cancel (task : Nat)
  deriving Repr, DecidableEq

namespace TaskScheduler

def empty : TaskScheduler := ⟨.empty, fun _ => none, [], 1, 0, []⟩

variable (s : TaskScheduler)

/-- An await removes the registration of its descriptor. -/
def drop (a : Awaiter) : TaskScheduler :=
  { s with
    loop := (s.loop.del a.fd).2
    removals := s.removals ++ (s.loop.registered a.fd).toList.map fun r => ⟨a.id, r.handler⟩ }

/-- Give a task a state, or take it from the registry. -/
def put (task : Nat) (state : Option TaskState) : TaskScheduler :=
  { s with tasks := Function.update s.tasks task state }

def resume (task : Nat) : TaskScheduler :=
  { s.put task (some .running) with resumed := task :: s.resumed }

/-- A task awaits a descriptor: it is suspended, or goes on and leaves the await behind. -/
def awaitReadable (task : Nat) (rest : List Nat) (fd : Int) (interest : UInt32) (accepted : Bool) :
    TaskScheduler :=
  let a : Awaiter := ⟨s.nextAwaiter, fd⟩
  let (added, loop) := s.loop.add fd interest a.id accepted
  let s := { s with loop, nextAwaiter := s.nextAwaiter + 1 }
  if added then { s.put task (some (.onFd a)) with resumed := rest } else s.drop a

def step (s : TaskScheduler) : TaskAction → Option TaskScheduler
  | .spawn => some { s.resume s.nextId with nextId := s.nextId + 1 }
  | .awaitReadable fd interest accepted =>
      match s.resumed with
      | [] => none
      | task :: rest => some (s.awaitReadable task rest fd interest accepted)
  | .awaitTimer ms =>
      match s.resumed with
      | [] => none
      | task :: rest =>
          if ms = 0 then some s else some { s.put task (some .onTimer) with resumed := rest }
  | .complete =>
      match s.resumed with
      | [] => none
      | task :: rest => some { s.put task none with resumed := rest }
  | .event task =>
      match s.tasks task with
      | some (.onFd a) =>
          -- the loop calls the handler that is registered
          if (s.loop.registered a.fd).map (·.handler) = some a.id then some ((s.drop a).resume task)
          else none
      | _ => none
  | .timer task => if s.tasks task = some .onTimer then some (s.resume task) else none
  | .cancel task =>
      match s.tasks task with
      | some (.onFd a) => some ((s.drop a).put task none)
      | some .onTimer => some (s.put task none)
      -- a task must not be cancelled while it is resumed
      | some .running => none
      | none => some s

/-- Every suspended task has its descriptor registered for it, and no await has removed what
another one registered. -/
structure Undisturbed (s : TaskScheduler) : Prop where
  kept : ∀ task a, s.tasks task = some (.onFd a) →
    (s.loop.registered a.fd).map (·.handler) = some a.id
  own : ∀ r ∈ s.removals, r.awaiter = r.owner

/-- No task awaits a descriptor that is registered. -/
def Exclusive (s : TaskScheduler) : TaskAction → Prop
  | .awaitReadable fd _ _ => s.resumed ≠ [] → s.loop.hasFd fd = false
  | _ => True

instance (s : TaskScheduler) : ∀ action, Decidable (Exclusive s action)
  | .awaitReadable fd _ _ => inferInstanceAs (Decidable (s.resumed ≠ [] → s.loop.hasFd fd = false))
  | .spawn | .awaitTimer _ | .complete | .event _ | .timer _ | .cancel _ => isTrue trivial

/-! ## What steps keep -/

/-- The scheduler is undisturbed, and awaits are told apart. -/
structure Sane (s : TaskScheduler) : Prop extends Undisturbed s where
  wired : s.loop.Wired
  older : ∀ fd r, s.loop.registered fd = some r → r.handler < s.nextAwaiter
  apart : ∀ task task' a a', s.tasks task = some (.onFd a) → s.tasks task' = some (.onFd a') →
    a.id = a'.id → task = task'

variable {s : TaskScheduler}

/-- Two suspended tasks have different descriptors. -/
theorem Sane.fd_ne (sane : Sane s) {task task' : Nat} {a a' : Awaiter}
    (waits : s.tasks task = some (.onFd a)) (waits' : s.tasks task' = some (.onFd a'))
    (differ : task ≠ task') : a.fd ≠ a'.fd := by
  intro same
  have owner := sane.kept task a waits
  rw [same, sane.kept task' a' waits'] at owner
  exact differ (sane.apart task task' a a' waits waits' (Option.some.inj owner).symm)

/-- A task gets a state that is no wait for a descriptor. -/
theorem Sane.put (sane : Sane s) (task : Nat) {state : Option TaskState}
    (free : ∀ a, state ≠ some (.onFd a)) : Sane (s.put task state) := by
  have others : ∀ other a, (s.put task state).tasks other = some (.onFd a) →
      s.tasks other = some (.onFd a) := by
    intro other a waits
    by_cases same : other = task
    · subst same
      exact absurd ((Function.update_self ..).symm.trans waits) (free a)
    · exact (Function.update_of_ne same ..).symm.trans waits
  exact ⟨⟨fun other a waits => sane.kept other a (others other a waits), sane.own⟩, sane.wired,
    sane.older, fun t t' a a' waits waits' =>
      sane.apart t t' a a' (others t a waits) (others t' a' waits')⟩

/-- The removals of an await whose descriptor is its own or nobody's. -/
theorem own_drop {a : Awaiter} (own : ∀ r ∈ s.removals, r.awaiter = r.owner)
    (mine : ∀ r, s.loop.registered a.fd = some r → r.handler = a.id) :
    ∀ r ∈ (s.drop a).removals, r.awaiter = r.owner := by
  intro removal member
  obtain before | now := List.mem_append.mp member
  · exact own removal before
  · obtain ⟨r, known, rfl⟩ := List.mem_map.mp now
    exact (mine r (Option.mem_toList.mp known)).symm

/-- A suspended task is resumed or goes away, and its registration goes. -/
theorem Sane.drop (sane : Sane s) {task : Nat} {a : Awaiter} (waits : s.tasks task = some (.onFd a))
    {state : Option TaskState} (free : ∀ a, state ≠ some (.onFd a)) :
    Sane ((s.drop a).put task state) := by
  have others : ∀ other a', ((s.drop a).put task state).tasks other = some (.onFd a') →
      other ≠ task ∧ s.tasks other = some (.onFd a') := by
    intro other a' waits
    by_cases same : other = task
    · subst same
      exact absurd ((Function.update_self ..).symm.trans waits) (free a')
    · exact ⟨same, (Function.update_of_ne same ..).symm.trans waits⟩
  have registered : ∀ fd, ((s.drop a).put task state).loop.registered fd =
      if fd = a.fd then none else s.loop.registered fd := sane.wired.registered_del a.fd
  refine ⟨⟨fun other a' waits' => ?_, own_drop sane.own fun r known => ?_⟩,
    (sane.wired.del_carries a.fd).1.wired, fun fd r known => ?_, fun t t' b b' first second => ?_⟩
  · obtain ⟨differs, waits'⟩ := others other a' waits'
    rw [registered, if_neg (sane.fd_ne waits' waits differs)]
    exact sane.kept other a' waits'
  · have owner := sane.kept task a waits
    rw [known] at owner
    exact Option.some.inj owner
  · rw [registered] at known
    split at known
    · cases known
    · exact sane.older fd r known
  · exact sane.apart t t' b b' (others t b first).2 (others t' b' second).2

/-- A descriptor that nobody has registered is awaited. -/
theorem Sane.awaitReadable (sane : Sane s) {task : Nat} {rest : List Nat} {fd : Int}
    {interest : UInt32} {accepted : Bool} (exclusive : s.loop.registered fd = none) :
    Sane (s.awaitReadable task rest fd interest accepted) := by
  unfold TaskScheduler.awaitReadable
  dsimp only
  rcases done : s.loop.add fd interest s.nextAwaiter accepted with ⟨result, next⟩
  dsimp only
  obtain ⟨rfl, added⟩ | ⟨rfl, refused⟩ :=
    sane.wired.add_cases fd interest s.nextAwaiter accepted done
  · rw [if_pos rfl]
    have registered := sane.wired.registered_added added
    have busy : ∀ other a, s.tasks other = some (.onFd a) → a.fd ≠ fd ∧ a.id < s.nextAwaiter := by
      intro other a waits
      obtain ⟨r, known, owner⟩ := Option.map_eq_some_iff.mp (sane.kept other a waits)
      refine ⟨fun same => ?_, owner ▸ sane.older a.fd r known⟩
      rw [same, exclusive] at known
      cases known
    have states : ∀ other a, Function.update s.tasks task (some (.onFd ⟨s.nextAwaiter, fd⟩)) other =
        some (.onFd a) → (other = task ∧ a = ⟨s.nextAwaiter, fd⟩) ∨ s.tasks other = some (.onFd a) := by
      intro other a waits
      by_cases same : other = task
      · subst same
        rw [Function.update_self] at waits
        exact .inl ⟨rfl, by simpa using waits.symm⟩
      · exact .inr ((Function.update_of_ne same ..).symm.trans waits)
    refine ⟨⟨fun other a waits => ?_, sane.own⟩, sane.wired.of_added added, fun other r known => ?_,
      fun t t' a a' first second same => ?_⟩
    · change (next.registered a.fd).map _ = _
      obtain ⟨rfl, rfl⟩ | before := states other a waits
      · rw [registered, if_pos rfl]
        rfl
      · rw [registered, if_neg (busy other a before).1]
        exact sane.kept other a before
    · change next.registered other = some r at known
      change r.handler < s.nextAwaiter + 1
      rw [registered] at known
      split at known
      · cases known
        exact Nat.lt_succ_self _
      · exact Nat.lt_succ_of_lt (sane.older other r known)
    · obtain ⟨rfl, rfl⟩ | before := states t a first <;>
        obtain ⟨rfl, rfl⟩ | before' := states t' a' second
      · rfl
      · have := (busy t' a' before').2
        dsimp only at same
        omega
      · have := (busy t a before).2
        dsimp only at same
        omega
      · exact sane.apart t t' a a' before before' same
  · have wired : next.Wired := by
      obtain rfl | ⟨slot, allocated⟩ := refused
      · exact sane.wired
      · exact sane.wired.of_allocated allocated
    have same : ∀ other, next.registered other = s.loop.registered other := by
      obtain rfl | ⟨slot, allocated⟩ := refused
      · exact fun _ => rfl
      · exact EventLoop.registered_allocated allocated
    have registered : ∀ other, (next.del fd).2.registered other = s.loop.registered other := by
      intro other
      rw [wired.registered_del, same]
      split
      · rename_i here
        rw [here, exclusive]
      · rfl
    rw [if_neg Bool.false_ne_true]
    refine ⟨⟨fun other a waits => ?_, own_drop sane.own fun r known => ?_⟩,
      (wired.del_carries fd).1.wired, fun other r known => ?_, sane.apart⟩
    · change ((next.del fd).2.registered a.fd).map _ = _
      rw [registered]
      exact sane.kept other a waits
    · change next.registered fd = some r at known
      rw [same, exclusive] at known
      cases known
    · change (next.del fd).2.registered other = some r at known
      rw [registered] at known
      exact Nat.lt_succ_of_lt (sane.older other r known)

theorem registered_eq_none_of_hasFd {loop : EventLoop Nat} (wired : loop.Wired) {fd : Int}
    (free : loop.hasFd fd = false) : loop.registered fd = none := by
  rw [wired.registered_eq_none]
  simpa [EventLoop.hasFd] using free

/-- Who is resumed and which id is next does not matter. -/
theorem Sane.rescheduled (sane : Sane s) (resumed : List Nat) (nextId : Nat) :
    Sane { s with resumed, nextId } :=
  ⟨⟨sane.kept, sane.own⟩, sane.wired, sane.older, sane.apart⟩

theorem Sane.step (sane : Sane s) {action : TaskAction} (exclusive : Exclusive s action)
    {s' : TaskScheduler} (stepped : s.step action = some s') : Sane s' := by
  have running : ∀ a, some TaskState.running ≠ some (.onFd a) := by simp
  have onTimer : ∀ a, some TaskState.onTimer ≠ some (.onFd a) := by simp
  have gone : ∀ a, none ≠ some (TaskState.onFd a) := by simp
  cases action with
  | spawn =>
      cases stepped
      exact (sane.put s.nextId running).rescheduled _ _
  | awaitReadable fd interest accepted =>
      simp only [TaskScheduler.step] at stepped
      split at stepped
      · cases stepped
      · rename_i task rest resumed
        cases stepped
        refine sane.awaitReadable (registered_eq_none_of_hasFd sane.wired (exclusive ?_))
        simp [resumed]
  | awaitTimer ms =>
      simp only [TaskScheduler.step] at stepped
      split at stepped
      · cases stepped
      split at stepped
      · cases stepped
        exact sane
      · cases stepped
        exact (sane.put _ onTimer).rescheduled _ _
  | complete =>
      simp only [TaskScheduler.step] at stepped
      split at stepped
      · cases stepped
      · cases stepped
        exact (sane.put _ gone).rescheduled _ _
  | event task =>
      simp only [TaskScheduler.step] at stepped
      split at stepped
      · rename_i a waits
        split at stepped
        · cases stepped
          exact (sane.drop waits running).rescheduled _ _
        · cases stepped
      · cases stepped
  | timer task =>
      simp only [TaskScheduler.step] at stepped
      split at stepped
      · cases stepped
        exact (sane.put task running).rescheduled _ _
      · cases stepped
  | cancel task =>
      simp only [TaskScheduler.step] at stepped
      split at stepped
      · rename_i a waits
        cases stepped
        exact sane.drop waits gone
      · cases stepped
        exact sane.put task gone
      · cases stepped
      · cases stepped
        exact sane

/-- An await of a descriptor that is registered removes what another await registered. -/
theorem Sane.disturbed (sane : Sane s) {action : TaskAction} (shared : ¬ Exclusive s action) :
    ∃ s', s.step action = some s' ∧ ¬ Undisturbed s' := by
  cases action with
  | awaitReadable fd interest accepted =>
      obtain ⟨resumed, taken⟩ := Classical.not_imp.mp shared
      obtain ⟨task, rest, shape⟩ := List.exists_cons_of_ne_nil resumed
      have present : s.loop.hasFd fd = true := by simpa using taken
      obtain ⟨r, known⟩ : ∃ r, s.loop.registered fd = some r := by
        refine Option.ne_none_iff_exists'.mp fun none => ?_
        rw [sane.wired.registered_eq_none] at none
        simp [EventLoop.hasFd, none] at present
      refine ⟨s.awaitReadable task rest fd interest accepted, by simp [TaskScheduler.step, shape], ?_⟩
      intro undisturbed
      have failed : s.loop.add fd interest s.nextAwaiter accepted = (false, s.loop) := by
        simp [EventLoop.add, present]
      have removed : ⟨s.nextAwaiter, r.handler⟩ ∈
          (s.awaitReadable task rest fd interest accepted).removals := by
        simp [TaskScheduler.awaitReadable, failed, TaskScheduler.drop, known]
      have owner : s.nextAwaiter = r.handler := undisturbed.own _ removed
      have older := sane.older fd r known
      omega
  | _ => exact absurd trivial shared

theorem Sane.empty : Sane .empty where
  kept _ _ waits := by cases waits
  own _ member := by cases member
  wired := EventLoop.Wired.empty
  older _ _ known := by cases known
  apart _ _ _ _ waits := by cases waits

/-- **Suspended tasks keep their registrations exactly in the runs in which no task awaits a
descriptor that is registered.** -/
theorem undisturbed_iff_exclusive (actions : List TaskAction) :
    Transition.Always TaskScheduler.step Undisturbed .empty actions ↔
      Transition.Meets TaskScheduler.step Exclusive .empty actions :=
  Transition.always_iff_meets (fun sane => sane.toUndisturbed)
    (fun sane exclusive stepped => sane.step exclusive stepped)
    (fun sane shared => sane.disturbed shared) Sane.empty

/-- The second task to await a descriptor goes on, and the first one is never woken up. -/
theorem undisturbed_fails :
    ¬ ∀ actions, Transition.Always TaskScheduler.step Undisturbed .empty actions := by
  intro claim
  obtain ⟨s, ran, seen⟩ := Transition.exists_run_of_any
    (show (Transition.run TaskScheduler.step .empty
      [.spawn, .awaitReadable 3 1 true, .spawn, .awaitReadable 3 1 true]).any (fun s =>
        s.tasks 1 == some (.onFd ⟨0, 3⟩) && (s.loop.registered 3).isNone) = true by decide +kernel)
  simp only [Bool.and_eq_true, beq_iff_eq, Option.isNone_iff_eq_none] at seen
  have kept := ((claim _).reached ran).kept 1 ⟨0, 3⟩ seen.1
  simp [seen.2] at kept

end TaskScheduler

end Opencodepp.Core
