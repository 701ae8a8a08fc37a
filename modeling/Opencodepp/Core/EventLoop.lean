import Mathlib.Data.List.Nodup
import Mathlib.Logic.Function.Basic
import Opencodepp.Library.Transition

/-!
# The event loop

The loop has its registrations in slots, which are reused, and a map from descriptors to slots.
A pass of the loop fetches a batch of ready descriptors and then calls the handlers one after
the other, and a handler may register and deregister whatever it likes.  What the batch holds
differs: `epoll` hands back a pointer to the slot of the registration, `poll` a position among
the slots that were in use, which is then taken for a position among all slots.

A registration is told from every other one by the number it gets when it is made; the pointer
to a slot is that number.  Deliveries are right as long as no registration is removed while the
batch still has an event of it, and, for `poll`, no free slot stands before a ready one
(`deliveries_right`).
-/

set_option autoImplicit false

namespace Opencodepp.Core

open Opencodepp.Library

/-- A registration of a descriptor. -/
structure Registration (α : Type) where
  number : Nat
  fd : Int
  interest : UInt32
  handler : α
  deriving Repr, DecidableEq

/-- A slot in use.  The first one is for the pipe that wakes the loop up. -/
inductive Slot (α : Type)
  | wake
  | fd (r : Registration α)
  deriving Repr, DecidableEq

structure EventLoop (α : Type) where
  slots : List (Option (Slot α))
  freeSlots : List Nat
  fdSlot : Int → Option Nat
  nextNumber : Nat

namespace EventLoop

variable {α : Type}

def empty : EventLoop α := ⟨[some .wake], [], fun _ => none, 0⟩

variable (loop : EventLoop α)

/-- What a slot holds. -/
def slotAt (i : Nat) : Option (Slot α) := loop.slots[i]?.join

/-- The registration of a descriptor. -/
def registered (fd : Int) : Option (Registration α) :=
  match (loop.fdSlot fd).bind loop.slotAt with
  | some (.fd r) => some r
  | _ => none

def hasFd (fd : Int) : Bool := (loop.fdSlot fd).isSome

/-- A free slot: one that was given back, or a new one. -/
def allocate : Nat × EventLoop α :=
  match loop.freeSlots with
  | slot :: rest => (slot, { loop with freeSlots := rest })
  | [] => (loop.slots.length, { loop with slots := loop.slots ++ [none] })

/-- Register a descriptor.  When the kernel refuses, the slot is lost. -/
def add (fd : Int) (interest : UInt32) (handler : α) (accepted : Bool) : Bool × EventLoop α :=
  if fd < 0 ∨ loop.hasFd fd then (false, loop)
  else
    let (slot, next) := loop.allocate
    if accepted then
      (true, { next with
        slots := next.slots.set slot (some (.fd ⟨next.nextNumber, fd, interest, handler⟩))
        fdSlot := Function.update next.fdSlot fd (some slot)
        nextNumber := next.nextNumber + 1 })
    else (false, next)

/-- Change the interest in a descriptor. -/
def mod (fd : Int) (interest : UInt32) (accepted : Bool) : Bool × EventLoop α :=
  match loop.fdSlot fd, loop.registered fd with
  | some slot, some r =>
      (accepted, { loop with slots := loop.slots.set slot (some (.fd { r with interest })) })
  | _, _ => (false, loop)

/-- Remove a registration and free its slot. -/
def del (fd : Int) : Bool × EventLoop α :=
  match loop.fdSlot fd with
  | none => (false, loop)
  | some slot =>
      (true, { loop with
        slots := loop.slots.set slot none
        fdSlot := Function.update loop.fdSlot fd none
        freeSlots := slot :: loop.freeSlots })

end EventLoop

/-! ## The registry -/

namespace EventLoop

variable {α : Type}

/-- Descriptors and slots lead to each other, and free slots are free. -/
structure Wired (loop : EventLoop α) : Prop where
  slotOf : ∀ fd i, loop.fdSlot fd = some i → ∃ r, loop.slotAt i = some (.fd r) ∧ r.fd = fd
  fdOf : ∀ i r, loop.slotAt i = some (.fd r) → loop.fdSlot r.fd = some i
  free : ∀ i ∈ loop.freeSlots, i < loop.slots.length ∧ loop.slotAt i = none
  once : loop.freeSlots.Nodup
  older : ∀ i r, loop.slotAt i = some (.fd r) → r.number < loop.nextNumber
  distinct : ∀ i j r r', loop.slotAt i = some (.fd r) → loop.slotAt j = some (.fd r') →
    r.number = r'.number → i = j

theorem Wired.empty : Wired (.empty : EventLoop α) := by
  have nothing : ∀ i r, (EventLoop.empty : EventLoop α).slotAt i ≠ some (.fd r) := by
    intro i r
    cases i <;> simp [EventLoop.empty, slotAt]
  exact ⟨fun fd i known => by simp [EventLoop.empty] at known,
    fun i r there => absurd there (nothing i r), fun i free => by simp [EventLoop.empty] at free,
    List.nodup_nil, fun i r there => absurd there (nothing i r),
    fun i j r r' there => absurd there (nothing i r)⟩

variable {loop : EventLoop α}

theorem slotAt_set {slots : List (Option (Slot α))} {i j : Nat} {s : Option (Slot α)}
    (inside : i < slots.length) :
    (slots.set i s)[j]?.join = if j = i then s else slots[j]?.join := by
  by_cases same : j = i
  · subst same
    simp [inside]
  · rw [if_neg same, List.getElem?_set_ne (Ne.symm same)]

theorem lt_length_of_slotAt {i : Nat} {s : Slot α} (there : loop.slotAt i = some s) :
    i < loop.slots.length := by
  by_contra beyond
  rw [slotAt, List.getElem?_eq_none (by omega)] at there
  cases there

theorem Wired.registered_eq_some (wired : Wired loop) {fd : Int} {r : Registration α} :
    loop.registered fd = some r ↔ ∃ i, loop.slotAt i = some (.fd r) ∧ r.fd = fd := by
  unfold registered
  constructor
  · intro known
    cases place : loop.fdSlot fd with
    | none => simp [place] at known
    | some i =>
        obtain ⟨r', there, home⟩ := wired.slotOf fd i place
        simp only [place, Option.bind_some, there, Option.some.injEq] at known
        subst known
        exact ⟨i, there, home⟩
  · rintro ⟨i, there, rfl⟩
    simp [wired.fdOf i r there, there]

theorem Wired.registered_eq_none (wired : Wired loop) {fd : Int} :
    loop.registered fd = none ↔ loop.fdSlot fd = none := by
  unfold registered
  cases place : loop.fdSlot fd with
  | none => simp
  | some i =>
      obtain ⟨r, there, _⟩ := wired.slotOf fd i place
      simp [there]

/-- A free slot is inside and empty, and taking it changes nothing else. -/
structure Allocated (loop : EventLoop α) (slot : Nat) (next : EventLoop α) : Prop where
  inside : slot < next.slots.length
  slotAt : ∀ i, next.slotAt i = loop.slotAt i
  empty : loop.slotAt slot = none
  fdSlot : next.fdSlot = loop.fdSlot
  number : next.nextNumber = loop.nextNumber
  free : ∀ i ∈ next.freeSlots, i ≠ slot ∧ i < next.slots.length ∧ loop.slotAt i = none
  once : next.freeSlots.Nodup

theorem Wired.allocated (wired : Wired loop) : Allocated loop loop.allocate.1 loop.allocate.2 := by
  unfold allocate
  cases stock : loop.freeSlots with
  | nil =>
      refine ⟨by simp, fun i => ?_, by simp [slotAt], rfl, rfl, ?_, ?_⟩
      · simp only [slotAt, List.getElem?_append]
        split
        · rfl
        · rename_i beyond
          rw [List.getElem?_eq_none (Nat.le_of_not_lt beyond)]
          cases i - loop.slots.length <;> rfl
      · simp
      · simp
  | cons slot rest =>
      have once := stock ▸ wired.once
      obtain ⟨inside, empty⟩ := wired.free slot (by simp [stock])
      refine ⟨inside, fun _ => rfl, empty, rfl, rfl, fun i free => ?_, (List.nodup_cons.mp once).2⟩
      refine ⟨?_, wired.free i (by rw [stock]; exact List.mem_cons_of_mem _ free)⟩
      rintro rfl
      exact (List.nodup_cons.mp once).1 free

theorem Wired.of_allocated (wired : Wired loop) {slot : Nat} {next : EventLoop α}
    (allocated : Allocated loop slot next) : Wired next where
  slotOf fd i known := by
    rw [allocated.slotAt]
    exact wired.slotOf fd i (allocated.fdSlot ▸ known)
  fdOf i r there := by
    rw [allocated.fdSlot]
    exact wired.fdOf i r (allocated.slotAt i ▸ there)
  free i free := by
    rw [allocated.slotAt]
    exact (allocated.free i free).2
  once := allocated.once
  older i r there := by
    rw [allocated.number]
    exact wired.older i r (allocated.slotAt i ▸ there)
  distinct i j r r' there there' same :=
    wired.distinct i j r r' (allocated.slotAt i ▸ there) (allocated.slotAt j ▸ there') same

/-- What a successful registration leaves. -/
structure Added (loop : EventLoop α) (r : Registration α) (next : EventLoop α) : Prop where
  fresh : loop.fdSlot r.fd = none
  number : r.number = loop.nextNumber
  nextNumber : next.nextNumber = loop.nextNumber + 1
  place : ∃ slot, loop.slotAt slot = none ∧
    (∀ i, next.slotAt i = if i = slot then some (.fd r) else loop.slotAt i) ∧
    next.fdSlot = Function.update loop.fdSlot r.fd (some slot) ∧
    (∀ i ∈ next.freeSlots, i ≠ slot ∧ i < next.slots.length ∧ loop.slotAt i = none) ∧
    next.freeSlots.Nodup

theorem Wired.add_cases (wired : Wired loop) (fd : Int) (interest : UInt32) (handler : α)
    (accepted : Bool) {result : Bool} {next : EventLoop α}
    (done : loop.add fd interest handler accepted = (result, next)) :
    (result = true ∧ Added loop ⟨loop.nextNumber, fd, interest, handler⟩ next) ∨
      (result = false ∧ (next = loop ∨ ∃ slot, Allocated loop slot next)) := by
  unfold add at done
  split at done
  · cases done
    exact .inr ⟨rfl, .inl rfl⟩
  · rename_i absent
    have fresh : loop.fdSlot fd = none := by
      simpa [hasFd] using fun present => absent (.inr present)
    have allocated := wired.allocated
    generalize loop.allocate = pair at done allocated
    obtain ⟨slot, rest⟩ := pair
    dsimp only at done allocated
    split at done
    · cases done
      refine .inl ⟨rfl, fresh, rfl, by rw [allocated.number], slot, allocated.empty, fun i => ?_, ?_, ?_,
        allocated.once⟩
      · simp only [slotAt]
        rw [slotAt_set allocated.inside, allocated.number]
        have same := allocated.slotAt i
        simp only [slotAt] at same
        rw [same]
      · rw [allocated.fdSlot]
      · intro i free
        simpa using allocated.free i free
    · cases done
      exact .inr ⟨rfl, .inr ⟨slot, allocated⟩⟩

theorem Wired.of_added (wired : Wired loop) {r : Registration α} {next : EventLoop α}
    (added : Added loop r next) : Wired next := by
  obtain ⟨slot, empty, slots, fds, free, once⟩ := added.place
  have others : ∀ i r', next.slotAt i = some (.fd r') →
      (i = slot ∧ r' = r) ∨ (i ≠ slot ∧ loop.slotAt i = some (.fd r')) := by
    intro i r' there
    rw [slots] at there
    split at there
    · rename_i here
      exact .inl ⟨here, by simpa using there.symm⟩
    · rename_i elsewhere
      exact .inr ⟨elsewhere, there⟩
  refine ⟨fun fd i known => ?_, fun i r' there => ?_, fun i member => ?_, once, fun i r' there => ?_,
    fun i j a b atI atJ same => ?_⟩
  · rw [fds] at known
    by_cases mine : fd = r.fd
    · subst mine
      obtain rfl : slot = i := by simpa using known
      exact ⟨r, by rw [slots, if_pos rfl], rfl⟩
    · rw [Function.update_of_ne mine] at known
      obtain ⟨r', there, home⟩ := wired.slotOf fd i known
      have elsewhere : i ≠ slot := fun here => by rw [here, empty] at there; cases there
      exact ⟨r', by rw [slots, if_neg elsewhere, there], home⟩
  · rw [fds]
    obtain ⟨rfl, rfl⟩ | ⟨_, there⟩ := others i r' there
    · exact Function.update_self ..
    · have known := wired.fdOf i r' there
      rw [Function.update_of_ne, known]
      intro same
      rw [same, added.fresh] at known
      cases known
  · obtain ⟨elsewhere, inside, empty⟩ := free i member
    exact ⟨inside, by rw [slots, if_neg elsewhere, empty]⟩
  · rw [added.nextNumber]
    obtain ⟨_, rfl⟩ | ⟨_, there⟩ := others i r' there
    · rw [added.number]
      exact Nat.lt_succ_self _
    · exact Nat.lt_succ_of_lt (wired.older i r' there)
  · obtain ⟨rfl, rfl⟩ | ⟨_, atI⟩ := others i a atI <;> obtain ⟨rfl, rfl⟩ | ⟨_, atJ⟩ := others j b atJ
    · rfl
    · have := wired.older j b atJ
      have := added.number
      omega
    · have := wired.older i a atI
      have := added.number
      omega
    · exact wired.distinct i j a b atI atJ same

/-- What a removal leaves. -/
structure Removed (loop : EventLoop α) (fd : Int) (next : EventLoop α) : Prop where
  nextNumber : next.nextNumber = loop.nextNumber
  place : ∃ slot, loop.fdSlot fd = some slot ∧
    (∀ i, next.slotAt i = if i = slot then none else loop.slotAt i) ∧
    next.fdSlot = Function.update loop.fdSlot fd none ∧ next.freeSlots = slot :: loop.freeSlots ∧
    next.slots.length = loop.slots.length

theorem Wired.del_cases (wired : Wired loop) (fd : Int) {result : Bool} {next : EventLoop α}
    (done : loop.del fd = (result, next)) :
    (result = true ∧ Removed loop fd next) ∨
      (result = false ∧ loop.fdSlot fd = none ∧ next = loop) := by
  unfold del at done
  cases known : loop.fdSlot fd with
  | none =>
      rw [known] at done
      cases done
      exact .inr ⟨rfl, rfl, rfl⟩
  | some slot =>
      rw [known] at done
      cases done
      obtain ⟨r, there, _⟩ := wired.slotOf fd slot known
      refine .inl ⟨rfl, rfl, slot, known, fun i => ?_, rfl, rfl, by simp⟩
      exact slotAt_set (lt_length_of_slotAt there)

theorem Wired.of_removed (wired : Wired loop) {fd : Int} {next : EventLoop α}
    (removed : Removed loop fd next) : Wired next := by
  obtain ⟨slot, known, slots, fds, free, length⟩ := removed.place
  obtain ⟨gone, held, home⟩ := wired.slotOf fd slot known
  have others : ∀ i r, next.slotAt i = some (.fd r) → i ≠ slot ∧ loop.slotAt i = some (.fd r) := by
    intro i r there
    rw [slots] at there
    split at there
    · cases there
    · rename_i elsewhere
      exact ⟨elsewhere, there⟩
  refine ⟨fun other i place => ?_, fun i r there => ?_, fun i member => ?_, ?_, fun i r there => ?_,
    fun i j a b atI atJ same => wired.distinct i j a b (others i a atI).2 (others j b atJ).2 same⟩
  · rw [fds] at place
    by_cases mine : other = fd
    · simp [mine] at place
    · rw [Function.update_of_ne mine] at place
      obtain ⟨r, there, home'⟩ := wired.slotOf other i place
      refine ⟨r, ?_, home'⟩
      rw [slots, if_neg, there]
      rintro rfl
      rw [held] at there
      cases there
      exact mine (home'.symm.trans home)
  · obtain ⟨elsewhere, there⟩ := others i r there
    rw [fds, Function.update_of_ne, wired.fdOf i r there]
    rintro rfl
    rw [wired.fdOf i r there] at known
    exact elsewhere (Option.some.inj known)
  · rw [free] at member
    rw [length, slots]
    obtain rfl | member := List.mem_cons.mp member
    · exact ⟨lt_length_of_slotAt held, if_pos rfl⟩
    · obtain ⟨inside, empty⟩ := wired.free i member
      refine ⟨inside, ?_⟩
      split
      · rfl
      · exact empty
  · rw [free, List.nodup_cons]
    refine ⟨fun member => ?_, wired.once⟩
    rw [(wired.free slot member).2] at held
    cases held
  · rw [removed.nextNumber]
    exact wired.older i r (others i r there).2

/-- What a change of interest leaves: the same registrations otherwise. -/
structure Changed (loop : EventLoop α) (fd : Int) (interest : UInt32) (next : EventLoop α) :
    Prop where
  nextNumber : next.nextNumber = loop.nextNumber
  fdSlot : next.fdSlot = loop.fdSlot
  freeSlots : next.freeSlots = loop.freeSlots
  length : next.slots.length = loop.slots.length
  slotAt : ∀ i, next.slotAt i = (loop.slotAt i).map fun
    | .wake => .wake
    | .fd r => .fd (if r.fd = fd then { r with interest } else r)

theorem Wired.mod_cases (wired : Wired loop) (fd : Int) (interest : UInt32) (accepted : Bool)
    {result : Bool} {next : EventLoop α} (done : loop.mod fd interest accepted = (result, next)) :
    (loop.fdSlot fd = none ∧ result = false ∧ next = loop) ∨
      (result = accepted ∧ Changed loop fd interest next) := by
  unfold mod at done
  cases known : loop.fdSlot fd with
  | none =>
      rw [known] at done
      cases done
      exact .inl ⟨rfl, rfl, rfl⟩
  | some slot =>
      obtain ⟨r, there, home⟩ := wired.slotOf fd slot known
      have found : loop.registered fd = some r := wired.registered_eq_some.mpr ⟨slot, there, home⟩
      rw [known, found] at done
      cases done
      refine .inr ⟨rfl, rfl, rfl, rfl, by simp, fun i => ?_⟩
      refine (slotAt_set (lt_length_of_slotAt there)).trans ?_
      split
      · rename_i here
        subst here
        rw [there]
        simp [home]
      · rename_i elsewhere
        change loop.slotAt i = _
        cases held : loop.slotAt i with
        | none => rfl
        | some s =>
            cases s with
            | wake => rfl
            | fd r' =>
                have other : r'.fd ≠ fd := by
                  intro same
                  have place := wired.fdOf i r' held
                  rw [same, known] at place
                  exact elsewhere (Option.some.inj place).symm
                simp [other]

theorem Wired.of_changed (wired : Wired loop) {fd : Int} {interest : UInt32} {next : EventLoop α}
    (changed : Changed loop fd interest next) : Wired next := by
  have back : ∀ i r, next.slotAt i = some (.fd r) →
      ∃ r', loop.slotAt i = some (.fd r') ∧ r.fd = r'.fd ∧ r.number = r'.number := by
    intro i r there
    rw [changed.slotAt] at there
    obtain ⟨s, held, same⟩ := Option.map_eq_some_iff.mp there
    cases s with
    | wake => cases same
    | fd r' =>
        cases same
        refine ⟨r', held, ?_⟩
        split <;> exact ⟨rfl, rfl⟩
  refine ⟨fun other i known => ?_, fun i r there => ?_, fun i free => ?_, changed.freeSlots ▸ wired.once,
    fun i r there => ?_, fun i j a b atI atJ same => ?_⟩
  · obtain ⟨r, there, home⟩ := wired.slotOf other i (changed.fdSlot ▸ known)
    rw [changed.slotAt, there]
    refine ⟨_, rfl, ?_⟩
    split <;> exact home
  · obtain ⟨r', held, fd, _⟩ := back i r there
    rw [changed.fdSlot, fd]
    exact wired.fdOf i r' held
  · obtain ⟨inside, empty⟩ := wired.free i (changed.freeSlots ▸ free)
    exact ⟨changed.length ▸ inside, by rw [changed.slotAt, empty]; rfl⟩
  · obtain ⟨r', held, _, number⟩ := back i r there
    rw [changed.nextNumber, number]
    exact wired.older i r' held
  · obtain ⟨a', heldA, _, numberA⟩ := back i a atI
    obtain ⟨b', heldB, _, numberB⟩ := back j b atJ
    exact wired.distinct i j a' b' heldA heldB (by rw [← numberA, ← numberB, same])

/-- A registration that is made is the one of its descriptor, and the others stay. -/
theorem Wired.registered_added (wired : Wired loop) {r : Registration α} {next : EventLoop α}
    (added : Added loop r next) (fd : Int) :
    next.registered fd = if fd = r.fd then some r else loop.registered fd := by
  obtain ⟨slot, empty, slots, fds, _⟩ := added.place
  by_cases mine : fd = r.fd
  · subst mine
    simp [registered, fds, slots]
  · rw [if_neg mine]
    unfold registered
    rw [fds, Function.update_of_ne mine]
    cases known : loop.fdSlot fd with
    | none => rfl
    | some i =>
        obtain ⟨r', there, _⟩ := wired.slotOf fd i known
        have elsewhere : i ≠ slot := fun here => by rw [here, empty] at there; cases there
        simp [slots, elsewhere]

theorem registered_allocated {slot : Nat} {next : EventLoop α} (allocated : Allocated loop slot next)
    (fd : Int) : next.registered fd = loop.registered fd := by
  unfold registered
  rw [allocated.fdSlot]
  cases loop.fdSlot fd with
  | none => rfl
  | some i => simp [allocated.slotAt]

/-- The registration of a descriptor goes, and the others stay. -/
theorem Wired.registered_del (wired : Wired loop) (fd other : Int) :
    (loop.del fd).2.registered other = if other = fd then none else loop.registered other := by
  rcases done : loop.del fd with ⟨result, next⟩
  obtain ⟨_, removed⟩ | ⟨_, absent, same⟩ := wired.del_cases fd done
  · have wired' := wired.of_removed removed
    obtain ⟨slot, known, slots, fds, _⟩ := removed.place
    split
    · rename_i same
      rw [wired'.registered_eq_none, fds, same, Function.update_self]
    · rename_i different
      unfold registered
      rw [fds, Function.update_of_ne different]
      cases place : loop.fdSlot other with
      | none => rfl
      | some i =>
          obtain ⟨r, there, home⟩ := wired.slotOf other i place
          obtain ⟨r', there', home'⟩ := wired.slotOf fd slot known
          have elsewhere : i ≠ slot := by
            rintro rfl
            rw [there] at there'
            cases there'
            exact different (home.symm.trans home')
          simp [slots, elsewhere]
  · rw [same]
    split
    · rename_i same
      rw [same, wired.registered_eq_none, absent]
    · rfl

/-! ## Dispatch -/

/-- The position of a slot among those in use. -/
def place (loop : EventLoop α) (i : Nat) : Nat := (loop.slots.take i).countP Option.isSome

end EventLoop

inductive Backend
  | epoll
  | poll
  deriving Repr, DecidableEq

/-- A descriptor that was found ready: the number of its registration, which is what the pointer
of `epoll` leads to, and its position in what `poll` was given. -/
structure Ready where
  number : Nat
  position : Nat
  fd : Int
  events : UInt32
  deriving Repr, DecidableEq

/-- An event together with the registration whose handler is called with it.  There is none when
the loop reads a slot that is gone. -/
structure Delivery (α : Type) where
  ready : Ready
  target : Option (Registration α)
  deriving Repr, DecidableEq

/-- The event reaches the registration that it was fetched for. -/
def Delivery.Right {α : Type} (d : Delivery α) : Prop :=
  ∃ r, d.target = some r ∧ r.number = d.ready.number ∧ r.fd = d.ready.fd

/-- The loop in the middle of a pass: what is left of the batch, and the calls so far. -/
structure Dispatcher (α : Type) where
  loop : EventLoop α
  pending : List Ready
  log : List (Delivery α)

/-- What happens to the loop.  Handlers and their callers register and deregister at any time; a
batch is fetched when the last one is done.  Events of the wake-up pipe call no handler. -/
inductive LoopOp (α : Type)
  | add (fd : Int) (interest : UInt32) (handler : α) (accepted : Bool)
  | mod (fd : Int) (interest : UInt32) (accepted : Bool)
  | del (fd : Int)
  | fetch (ready : List (Nat × UInt32))
  | dispatch
  deriving Repr, DecidableEq

namespace Dispatcher

variable {α : Type}

def empty : Dispatcher α := ⟨.empty, [], []⟩

/-- The event of a slot that is found ready. -/
def readyAt (loop : EventLoop α) (slot : Nat × UInt32) : Option Ready :=
  match loop.slotAt slot.1 with
  | some (.fd r) => some ⟨r.number, loop.place slot.1, r.fd, slot.2⟩
  | _ => none

/-- Whose handler is called. -/
def target (loop : EventLoop α) (e : Ready) : Backend → Option (Registration α)
  | .epoll => loop.slots.findSome? fun
      | some (.fd r) => if r.number = e.number then some r else none
      | _ => none
  | .poll =>
      match loop.slotAt e.position with
      | some (.fd r) => some r
      | _ => none

/-- With `poll` no kernel is asked when a descriptor is registered. -/
def step (b : Backend) (s : Dispatcher α) : LoopOp α → Option (Dispatcher α)
  | .add fd interest handler accepted =>
      some { s with loop := (s.loop.add fd interest handler (accepted || b = .poll)).2 }
  | .mod fd interest accepted =>
      some { s with loop := (s.loop.mod fd interest (accepted || b = .poll)).2 }
  | .del fd => some { s with loop := (s.loop.del fd).2 }
  | .fetch ready =>
      if s.pending = [] then
        (ready.mapM (readyAt s.loop)).map fun pending => { s with pending }
      else none
  | .dispatch =>
      match s.pending with
      | [] => none
      | e :: rest => some { s with pending := rest, log := s.log ++ [⟨e, target s.loop e b⟩] }

/-- No registration is removed that the batch has an event of, and with `poll` there is no free
slot before a ready one. -/
def Orderly (b : Backend) (s : Dispatcher α) : LoopOp α → Prop
  | .del fd => ∀ e ∈ s.pending, e.fd ≠ fd
  | .fetch ready => b = .poll → ∀ slot ∈ ready, none ∉ s.loop.slots.take slot.1
  | _ => True

instance [DecidableEq α] (b : Backend) (s : Dispatcher α) : ∀ op, Decidable (Orderly b s op)
  | .del fd => inferInstanceAs (Decidable (∀ e ∈ s.pending, e.fd ≠ fd))
  | .fetch ready =>
      inferInstanceAs (Decidable (b = .poll → ∀ slot ∈ ready, none ∉ s.loop.slots.take slot.1))
  | .add _ _ _ _ | .mod _ _ _ | .dispatch => isTrue trivial

end Dispatcher

/-! ## Registrations over time -/

namespace EventLoop

variable {α : Type} {loop next : EventLoop α}

/-- A slot holds the registration with a number, of a descriptor. -/
def Holds (loop : EventLoop α) (i number : Nat) (fd : Int) : Prop :=
  ∃ r, loop.slotAt i = some (.fd r) ∧ r.number = number ∧ r.fd = fd

/-- What is registered stays in its slot, except for some descriptors, and what is new has a new
number. -/
structure Carries (except : Int → Prop) (loop next : EventLoop α) : Prop where
  wired : Wired next
  later : loop.nextNumber ≤ next.nextNumber
  kept : ∀ {i number fd}, loop.Holds i number fd → ¬ except fd → next.Holds i number fd
  known : ∀ {i number fd}, next.Holds i number fd → number < loop.nextNumber → loop.Holds i number fd

theorem Wired.add_carries (wired : Wired loop) (fd : Int) (interest : UInt32) (handler : α)
    (accepted : Bool) : Carries (fun _ => False) loop (loop.add fd interest handler accepted).2 := by
  rcases done : loop.add fd interest handler accepted with ⟨result, next⟩
  obtain ⟨_, added⟩ | ⟨_, same | ⟨slot, allocated⟩⟩ :=
    wired.add_cases fd interest handler accepted done
  · obtain ⟨slot, empty, slots, _⟩ := added.place
    refine ⟨wired.of_added added, by rw [added.nextNumber]; omega, ?_, ?_⟩
    · rintro i number fd' ⟨r, there, rest⟩ _
      refine ⟨r, ?_, rest⟩
      rw [slots, if_neg, there]
      rintro rfl
      rw [empty] at there
      cases there
    · rintro i number fd' ⟨r, there, rfl, rest⟩ old
      rw [slots] at there
      split at there
      · cases there
        exact absurd old (Nat.lt_irrefl _)
      · exact ⟨r, there, rfl, rest⟩
  · rw [same]
    exact ⟨wired, Nat.le_refl _, fun held _ => held, fun held _ => held⟩
  · refine ⟨wired.of_allocated allocated, Nat.le_of_eq allocated.number.symm, ?_, ?_⟩
    · rintro i number fd' ⟨r, there, rest⟩ _
      exact ⟨r, by rw [allocated.slotAt, there], rest⟩
    · rintro i number fd' ⟨r, there, rest⟩ _
      exact ⟨r, by rw [← allocated.slotAt, there], rest⟩

theorem Wired.mod_carries (wired : Wired loop) (fd : Int) (interest : UInt32) (accepted : Bool) :
    Carries (fun _ => False) loop (loop.mod fd interest accepted).2 := by
  rcases done : loop.mod fd interest accepted with ⟨result, next⟩
  obtain ⟨_, _, same⟩ | ⟨_, changed⟩ := wired.mod_cases fd interest accepted done
  · rw [same]
    exact ⟨wired, Nat.le_refl _, fun held _ => held, fun held _ => held⟩
  · refine ⟨wired.of_changed changed, Nat.le_of_eq changed.nextNumber.symm, ?_, ?_⟩
    · rintro i number fd' ⟨r, there, rest⟩ _
      refine ⟨_, by rw [changed.slotAt, there]; rfl, ?_⟩
      split <;> exact rest
    · rintro i number fd' ⟨r, there, rest⟩ _
      rw [changed.slotAt] at there
      obtain ⟨s, held, same⟩ := Option.map_eq_some_iff.mp there
      cases s with
      | wake => cases same
      | fd r' =>
          cases same
          refine ⟨r', held, ?_⟩
          split at rest <;> exact rest

theorem Wired.del_carries (wired : Wired loop) (fd : Int) :
    Carries (· = fd) loop (loop.del fd).2 ∧ ∀ i number, ¬ (loop.del fd).2.Holds i number fd := by
  rcases done : loop.del fd with ⟨result, next⟩
  obtain ⟨_, removed⟩ | ⟨_, absent, same⟩ := wired.del_cases fd done
  · obtain ⟨slot, known, slots, fds, _⟩ := removed.place
    have wired' := wired.of_removed removed
    refine ⟨⟨wired', Nat.le_of_eq removed.nextNumber.symm, ?_, ?_⟩, ?_⟩
    · rintro i number fd' ⟨r, there, rfl, rfl⟩ other
      refine ⟨r, ?_, rfl, rfl⟩
      rw [slots, if_neg, there]
      rintro rfl
      obtain ⟨r', there', home⟩ := wired.slotOf fd i known
      rw [there] at there'
      cases there'
      exact other home
    · rintro i number fd' ⟨r, there, rest⟩ _
      rw [slots] at there
      split at there
      · cases there
      · exact ⟨r, there, rest⟩
    · rintro i number ⟨r, there, _, rfl⟩
      have place := wired'.fdOf i r there
      rw [fds, Function.update_self] at place
      cases place
  · rw [same]
    refine ⟨⟨wired, Nat.le_refl _, fun held _ => held, fun held _ => held⟩, ?_⟩
    rintro i number ⟨r, there, _, rfl⟩
    rw [wired.fdOf i r there] at absent
    cases absent

end EventLoop

/-! ## Right deliveries -/

namespace Dispatcher

open EventLoop

variable {α : Type} {b : Backend} {loop next : EventLoop α} {e : Ready}

/-- The event leads to its registration. -/
def Leads (b : Backend) (loop : EventLoop α) (e : Ready) : Prop :=
  ∃ i, loop.Holds i e.number e.fd ∧ (b = .poll → e.position = i)

/-- The event leads nowhere, now and later. -/
structure Astray (b : Backend) (loop : EventLoop α) (e : Ready) : Prop where
  nowhere : ∀ i fd, loop.Holds i e.number fd → b = .poll ∧ e.position ≠ i
  old : e.number < loop.nextNumber

theorem Leads.carried {except : Int → Prop} (leads : Leads b loop e)
    (carries : Carries except loop next) (kept : ¬ except e.fd) : Leads b next e := by
  obtain ⟨i, held, place⟩ := leads
  exact ⟨i, carries.kept held kept, place⟩

theorem Astray.carried {except : Int → Prop} (astray : Astray b loop e)
    (carries : Carries except loop next) : Astray b next e where
  nowhere i fd held := astray.nowhere i fd (carries.known held astray.old)
  old := Nat.lt_of_lt_of_le astray.old carries.later

theorem mem_slots_iff {s : Slot α} : some s ∈ loop.slots ↔ ∃ i, loop.slotAt i = some s := by
  rw [List.mem_iff_getElem?]
  refine exists_congr fun i => ?_
  unfold slotAt
  cases loop.slots[i]? <;> simp

theorem target_epoll_eq_some {r : Registration α} (found : target loop e .epoll = some r) :
    ∃ i, loop.slotAt i = some (.fd r) ∧ r.number = e.number := by
  obtain ⟨slot, member, chosen⟩ := List.exists_of_findSome?_eq_some found
  match slot with
  | none | some .wake => cases chosen
  | some (.fd r') =>
      dsimp only at chosen
      split at chosen
      · rename_i number
        cases chosen
        obtain ⟨i, there⟩ := mem_slots_iff.mp member
        exact ⟨i, there, number⟩
      · cases chosen

theorem Leads.right (leads : Leads b loop e) (wired : Wired loop) :
    (Delivery.mk e (target loop e b)).Right := by
  obtain ⟨i, ⟨r, there, number, fd⟩, place⟩ := leads
  refine ⟨r, ?_, number, fd⟩
  cases b with
  | epoll =>
      cases found : target loop e .epoll with
      | none =>
          have skipped := List.findSome?_eq_none_iff.mp found _ (mem_slots_iff.mpr ⟨i, there⟩)
          simp [number] at skipped
      | some r' =>
          obtain ⟨j, there', number'⟩ := target_epoll_eq_some found
          obtain rfl := wired.distinct i j r r' there there' (number.trans number'.symm)
          rw [there] at there'
          cases there'
          rfl
  | poll =>
      dsimp only [target]
      rw [place rfl, there]

theorem Astray.wrong (astray : Astray b loop e) : ¬ (Delivery.mk e (target loop e b)).Right := by
  rintro ⟨r, found, number, _⟩
  cases b with
  | epoll =>
      obtain ⟨i, there, _⟩ := target_epoll_eq_some found
      exact absurd (astray.nowhere i r.fd ⟨r, there, number, rfl⟩).1 (by simp)
  | poll =>
      dsimp only [target] at found
      split at found
      · rename_i r' there
        cases found
        exact (astray.nowhere _ r.fd ⟨r, there, number, rfl⟩).2 rfl
      · cases found

/-- The position of a slot is its index exactly when no slot before it is free. -/
theorem place_eq_iff {i : Nat} (inside : i < loop.slots.length) :
    loop.place i = i ↔ none ∉ loop.slots.take i := by
  have length : (loop.slots.take i).length = i := by simp; omega
  unfold place
  constructor
  · intro same free
    have all := List.countP_eq_length.mp (same.trans length.symm) none free
    cases all
  · intro used
    refine Eq.trans (List.countP_eq_length.mpr fun s member => ?_) length
    cases s with
    | none => exact absurd member used
    | some s => rfl

/-- A slot that is found ready leads to its registration, unless `poll` takes the position of it
for another one. -/
theorem leads_or_astray (wired : Wired loop) {slot : Nat × UInt32}
    (found : readyAt loop slot = some e) :
    ((b = .poll → none ∉ loop.slots.take slot.1) → Leads b loop e) ∧
      (¬ (b = .poll → none ∉ loop.slots.take slot.1) → Astray b loop e) := by
  unfold readyAt at found
  split at found
  · rename_i r there
    cases found
    have inside := lt_length_of_slotAt there
    refine ⟨fun clear => ⟨slot.1, ⟨r, there, rfl, rfl⟩, fun poll => ?_⟩, fun blocked => ⟨?_, ?_⟩⟩
    · exact (place_eq_iff inside).mpr (clear poll)
    · rintro i fd ⟨r', there', number, _⟩
      obtain ⟨poll, free⟩ := Classical.not_imp.mp blocked
      have here := wired.distinct slot.1 i r r' there there' number.symm
      exact ⟨poll, fun same => free ((place_eq_iff inside).mp (same.trans here.symm))⟩
    · exact wired.older slot.1 r there
  · cases found

theorem mem_of_fetched {loop : EventLoop α} : ∀ {slots : List (Nat × UInt32)} {pending : List Ready},
    slots.mapM (readyAt loop) = some pending →
    (∀ e ∈ pending, ∃ slot ∈ slots, readyAt loop slot = some e) ∧
      ∀ slot ∈ slots, ∃ e ∈ pending, readyAt loop slot = some e := by
  intro slots
  induction slots with
  | nil =>
      intro pending fetched
      cases fetched
      simp
  | cons slot slots ih =>
      intro pending fetched
      rw [List.mapM_cons] at fetched
      simp only [bind, Option.bind_eq_some_iff] at fetched
      obtain ⟨e, first, rest, later, same⟩ := fetched
      cases Option.some.inj same
      obtain ⟨back, forth⟩ := ih later
      simp only [List.forall_mem_cons, List.exists_mem_cons_iff]
      exact ⟨⟨.inl first, fun e member => .inr (back e member)⟩, .inl first,
        fun slot member => .inr (forth slot member)⟩

variable {s s' : Dispatcher α} {op : LoopOp α}

/-- Everything was right so far, and the batch leads where it should. -/
structure OnTrack (b : Backend) (s : Dispatcher α) : Prop where
  wired : Wired s.loop
  leads : ∀ e ∈ s.pending, Leads b s.loop e
  right : ∀ d ∈ s.log, d.Right

/-- Something was wrong, or will be. -/
def Lost (b : Backend) (s : Dispatcher α) : Prop :=
  Wired s.loop ∧ ((∃ e ∈ s.pending, Astray b s.loop e) ∨ ∃ d ∈ s.log, ¬ d.Right)

theorem OnTrack.carried {except : Int → Prop} (track : OnTrack b s)
    (carries : Carries except s.loop next) (kept : ∀ e ∈ s.pending, ¬ except e.fd) :
    OnTrack b { s with loop := next } where
  wired := carries.wired
  leads e member := (track.leads e member).carried carries (kept e member)
  right := track.right

theorem OnTrack.step (track : OnTrack b s) (orderly : Orderly b s op)
    (stepped : Dispatcher.step b s op = some s') : OnTrack b s' := by
  cases op with
  | add fd interest handler accepted =>
      cases stepped
      exact track.carried (track.wired.add_carries ..) fun _ _ => id
  | mod fd interest accepted =>
      cases stepped
      exact track.carried (track.wired.mod_carries ..) fun _ _ => id
  | del fd =>
      cases stepped
      exact track.carried (track.wired.del_carries fd).1 orderly
  | fetch ready =>
      simp only [Dispatcher.step] at stepped
      split at stepped
      · obtain ⟨pending, fetched, rfl⟩ := Option.map_eq_some_iff.mp stepped
        refine ⟨track.wired, fun e member => ?_, track.right⟩
        obtain ⟨slot, there, found⟩ := (mem_of_fetched fetched).1 e member
        exact (leads_or_astray track.wired found).1 fun poll => orderly poll slot there
      · cases stepped
  | dispatch =>
      simp only [Dispatcher.step] at stepped
      split at stepped
      · cases stepped
      · rename_i e rest batch
        cases stepped
        have leads := track.leads
        rw [batch, List.forall_mem_cons] at leads
        refine ⟨track.wired, leads.2, fun d member => ?_⟩
        obtain before | now := List.mem_append.mp member
        · exact track.right d before
        · obtain rfl := List.mem_singleton.mp now
          exact leads.1.right track.wired

theorem OnTrack.lost (track : OnTrack b s) (disorderly : ¬ Orderly b s op)
    (stepped : Dispatcher.step b s op = some s') : Lost b s' := by
  cases op with
  | add | mod | dispatch => exact absurd trivial disorderly
  | del fd =>
      cases stepped
      simp only [Orderly, not_forall, not_not] at disorderly
      obtain ⟨e, member, rfl⟩ := disorderly
      obtain ⟨carries, gone⟩ := track.wired.del_carries e.fd
      obtain ⟨i, ⟨r, there, number, fd⟩, _⟩ := track.leads e member
      refine ⟨carries.wired, .inl ⟨e, member, fun j other held => ?_, ?_⟩⟩
      · -- the registration with this number was the one of the descriptor
        have old : e.number < s.loop.nextNumber := number ▸ track.wired.older i r there
        obtain ⟨r', there', number', fd'⟩ := carries.known held old
        obtain rfl := track.wired.distinct i j r r' there there' (number.trans number'.symm)
        rw [there] at there'
        cases there'
        exact absurd held (fd' ▸ fd ▸ gone i e.number)
      · exact Nat.lt_of_lt_of_le (number ▸ track.wired.older i r there) carries.later
  | fetch ready =>
      simp only [Dispatcher.step] at stepped
      split at stepped
      · obtain ⟨pending, fetched, rfl⟩ := Option.map_eq_some_iff.mp stepped
        simp only [Orderly, not_forall, not_not] at disorderly
        obtain ⟨poll, slot, there, free⟩ := disorderly
        obtain ⟨e, member, found⟩ := (mem_of_fetched fetched).2 slot there
        refine ⟨track.wired, .inl ⟨e, member, (leads_or_astray track.wired found).2 fun clear => ?_⟩⟩
        exact clear poll free
      · cases stepped

theorem Lost.carried {except : Int → Prop} (lost : Lost b s)
    (carries : Carries except s.loop next) : Lost b { s with loop := next } := by
  obtain ⟨_, ⟨e, member, astray⟩ | wrong⟩ := lost
  · exact ⟨carries.wired, .inl ⟨e, member, astray.carried carries⟩⟩
  · exact ⟨carries.wired, .inr wrong⟩

theorem Lost.step (lost : Lost b s) (stepped : Dispatcher.step b s op = some s') : Lost b s' := by
  cases op with
  | add fd interest handler accepted =>
      cases stepped
      exact lost.carried (lost.1.add_carries ..)
  | mod fd interest accepted =>
      cases stepped
      exact lost.carried (lost.1.mod_carries ..)
  | del fd =>
      cases stepped
      exact lost.carried (lost.1.del_carries fd).1
  | fetch ready =>
      simp only [Dispatcher.step] at stepped
      split at stepped
      · rename_i done
        obtain ⟨pending, _, rfl⟩ := Option.map_eq_some_iff.mp stepped
        obtain ⟨wired, ⟨e, member, _⟩ | wrong⟩ := lost
        · rw [done] at member
          cases member
        · exact ⟨wired, .inr wrong⟩
      · cases stepped
  | dispatch =>
      simp only [Dispatcher.step] at stepped
      split at stepped
      · cases stepped
      · rename_i e rest batch
        cases stepped
        obtain ⟨wired, ⟨e', member, astray⟩ | ⟨d, member, wrong⟩⟩ := lost
        · rw [batch] at member
          obtain rfl | later := List.mem_cons.mp member
          · exact ⟨wired, .inr ⟨_, List.mem_append_right _ (List.mem_singleton_self _), astray.wrong⟩⟩
          · exact ⟨wired, .inl ⟨e', later, astray⟩⟩
        · exact ⟨wired, .inr ⟨d, List.mem_append_left _ member, wrong⟩⟩

theorem OnTrack.empty : OnTrack b (.empty : Dispatcher α) where
  wired := Wired.empty
  leads _ member := by cases member
  right _ member := by cases member

/-- **Every event reaches the registration it was fetched for as long as the steps are orderly,
and of runs that finish their batches in those only.** -/
theorem deliveries_right {ops : List (LoopOp α)}
    (ran : Transition.run (Dispatcher.step b) .empty ops = some s) :
    (Transition.Meets (Dispatcher.step b) (Orderly b) .empty ops → ∀ d ∈ s.log, d.Right) ∧
      (s.pending = [] → (∀ d ∈ s.log, d.Right) →
        Transition.Meets (Dispatcher.step b) (Orderly b) .empty ops) := by
  have preserved : ∀ {s : Dispatcher α} {op s'}, OnTrack b s → Orderly b s op →
      Dispatcher.step b s op = some s' → OnTrack b s' := fun track orderly => track.step orderly
  constructor
  · intro meets
    exact (Transition.run_invariant preserved OnTrack.empty meets ran).right
  · intro finished right
    by_contra unmet
    obtain ⟨_, ⟨e, member, _⟩ | ⟨d, member, wrong⟩⟩ :=
      Transition.spoilt_of_not_meets preserved OnTrack.lost Lost.step OnTrack.empty ran unmet
    · rw [finished] at member
      cases member
    · exact wrong (right d member)

/-- Two descriptors are found ready together. -/
def twoReady : List (LoopOp Unit) :=
  [.add 3 1 () true, .add 4 1 () true, .fetch [(1, 1), (2, 1)], .dispatch]

theorem deliveries_right_two : ∃ s, Transition.run (Dispatcher.step .epoll) .empty
      (twoReady ++ [.del 3, .dispatch]) = some s ∧ s.log.length = 2 ∧ ∀ d ∈ s.log, d.Right := by
  obtain ⟨s, ran, seen⟩ := Transition.exists_run_of_any
    (show (Transition.run (Dispatcher.step .epoll) .empty (twoReady ++ [.del 3, .dispatch])).any
      (fun s => s.log.length == 2) = true by decide +kernel)
  exact ⟨s, ran, by simpa using seen, (deliveries_right ran).1 (by decide +kernel)⟩

/-- An event that calls no handler, or one of another registration. -/
def misses (d : Delivery Unit) : Bool := d.target.all fun r => r.number ≠ d.ready.number

theorem not_right_of_misses {d : Delivery Unit} (missed : misses d = true) : ¬ d.Right := by
  rintro ⟨r, found, number, _⟩
  simp [misses, found, number] at missed

/-- With `epoll` the first handler removes the second registration while its event waits; with
`poll` a registration was removed before, and its slot is still free. -/
theorem deliveries_fail :
    (¬ ∀ (ops : List (LoopOp Unit)) s, Transition.run (Dispatcher.step .epoll) .empty ops = some s →
      ∀ d ∈ s.log, d.Right) ∧
    ¬ ∀ (ops : List (LoopOp Unit)) s, Transition.run (Dispatcher.step .poll) .empty ops = some s →
      ∀ d ∈ s.log, d.Right := by
  constructor
  · intro claim
    obtain ⟨s, ran, seen⟩ := Transition.exists_run_of_any
      (show (Transition.run (Dispatcher.step .epoll) .empty (twoReady ++ [.del 4, .dispatch])).any
        (fun s => s.log.any misses) = true by decide +kernel)
    obtain ⟨d, member, missed⟩ := List.any_eq_true.mp seen
    exact not_right_of_misses missed (claim _ s ran d member)
  · intro claim
    obtain ⟨s, ran, seen⟩ := Transition.exists_run_of_any
      (show (Transition.run (Dispatcher.step .poll) .empty
        [.add 3 1 () true, .add 4 1 () true, .del 3, .fetch [(2, 1)], .dispatch]).any
        (fun s => s.log.any misses) = true by decide +kernel)
    obtain ⟨d, member, missed⟩ := List.any_eq_true.mp seen
    exact not_right_of_misses missed (claim _ s ran d member)

end Dispatcher

end Opencodepp.Core
