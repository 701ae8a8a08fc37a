import Mathlib.Data.List.Nodup
import Mathlib.Data.List.Perm.Subperm
import Opencodepp.Library.ByteString
import Opencodepp.Library.Transition

/-!
# The connection pool

Idle transports are parked per host; the number in use per host is counted and is to stay
bounded.  An acquire reuses the freshest parked transport of its host, or waits on the event loop
until the count is below the capacity and then opens a new one.  Waiting and opening run other
code, which may acquire and release in its turn, so a run is a sequence of actions on the pool
together with the stack of acquires that have not returned.

The count is right, parked transports are bounded, and no transport has two owners, in every run
(`accounted_run`).  The capacity is another matter.  It is tested in one place only, before a
transport is opened, and the count is raised after that; a parked transport is handed out without
a test.  `sound_iff_roomy` says that these two are the only ways past the capacity.
-/

set_option autoImplicit false

namespace Opencodepp.Net

open Opencodepp.Library

/-! ## The pool -/

structure PoolConfig where
  maxIdlePerHost : Nat := 2
  maxInFlightPerHost : Nat := 4
  idleTimeoutMs : UInt64 := 60000
  acquireWaitMs : UInt32 := 5000
  deriving Repr, DecidableEq

structure PoolKey where
  host : Bytes
  port : UInt16 := 0
  tls : Bool := false
  deriving Repr, DecidableEq

/-- A parked transport. -/
structure IdleEntry (τ : Type) where
  t : τ
  key : PoolKey
  parkedMs : UInt64
  deriving Repr, DecidableEq

def IdleEntry.isFor {τ : Type} (key : PoolKey) (e : IdleEntry τ) : Bool := e.key = key

/-- The counts are `int`s of the source; each counted transport owns a descriptor, itself an
`int`, so they stay in its range. -/
structure Pool (τ : Type) where
  idle : List (IdleEntry τ)
  inflight : List (PoolKey × Int)
  cfg : PoolConfig
  deriving Repr, DecidableEq

namespace Pool

variable {τ : Type}

def empty (cfg : PoolConfig) : Pool τ := ⟨[], [], cfg⟩

def inflightFor (p : Pool τ) (key : PoolKey) : Int :=
  ((p.inflight.find? (·.1 = key)).map (·.2)).getD 0

/-- The loop of `addInflight`: only a positive count makes an entry. -/
def addTo (key : PoolKey) (delta : Int) : List (PoolKey × Int) → List (PoolKey × Int)
  | [] => if 0 < delta then [(key, delta)] else []
  | kv :: rest => if kv.1 = key then (kv.1, kv.2 + delta) :: rest else kv :: addTo key delta rest

def addInflight (p : Pool τ) (key : PoolKey) (delta : Int) : Pool τ :=
  { p with inflight := addTo key delta p.inflight }

def reapIdle (p : Pool τ) (now : UInt64) : Pool τ :=
  { p with idle := p.idle.filter fun e => ¬ p.cfg.idleTimeoutMs < now - e.parkedMs }

/-- The first half of an acquire: the freshest idle transport of the host, if there is one. -/
def reuse (p : Pool τ) (key : PoolKey) : Option (τ × Pool τ) :=
  (p.idle.reverse.find? (IdleEntry.isFor key)).map fun e =>
    (e.t,
      { p with idle := (p.idle.reverse.eraseP (IdleEntry.isFor key)).reverse }.addInflight key 1)

/-- The head of the capacity loop. -/
inductive Capacity
  | free
  | timeout
  | full
  deriving Repr, DecidableEq

/-- The capacity is compared as an `int`. -/
def capacity (p : Pool τ) (key : PoolKey) (waitUntil now : UInt64) : Capacity :=
  if p.inflightFor key < Int.bmod p.cfg.maxInFlightPerHost 0x100000000 then .free
  else if waitUntil ≠ 0 ∧ waitUntil ≤ now then .timeout
  else .full

def waitUntil (p : Pool τ) (now : UInt64) : UInt64 :=
  if p.cfg.acquireWaitMs ≠ 0 then now + p.cfg.acquireWaitMs.toUInt64 else 0

/-- The eviction loop of `pushIdle`: the oldest transports of the host go first. -/
def evict (maxIdle : Nat) (key : PoolKey) : Nat → List (IdleEntry τ) → List (IdleEntry τ)
  | 0, idle => idle
  | cnt + 1, idle =>
      if maxIdle < cnt + 1 then evict maxIdle key cnt (idle.eraseP (IdleEntry.isFor key)) else idle

def pushIdle (p : Pool τ) (t : τ) (key : PoolKey) (now : UInt64) : Pool τ :=
  let idle := p.idle ++ [⟨t, key, now⟩]
  { p with idle := evict p.cfg.maxIdlePerHost key (idle.countP (IdleEntry.isFor key)) idle }

def release (p : Pool τ) (t : τ) (key : PoolKey) (healthy connected : Bool) (now : UInt64) :
    Pool τ :=
  let p := p.addInflight key (-1)
  if healthy && connected then p.pushIdle t key now else p

def dropIdle (p : Pool τ) : Pool τ := { p with idle := [] }

def inFlight (p : Pool τ) (key : PoolKey) : Nat := (p.inflightFor key).toNat

/-! ### What the operations do to the counts -/

theorem find?_addTo_of_ne {key other : PoolKey} (different : other ≠ key) (delta : Int) :
    ∀ counts : List (PoolKey × Int),
      (addTo key delta counts).find? (·.1 = other) = counts.find? (·.1 = other) := by
  intro counts
  induction counts with
  | nil =>
      unfold addTo
      split
      · simp [Ne.symm different]
      · rfl
  | cons kv rest inductionHypothesis =>
      unfold addTo
      split
      · next same => simp [same, Ne.symm different]
      · simp [List.find?_cons, inductionHypothesis]

theorem inflightFor_addInflight_of_ne (p : Pool τ) {key other : PoolKey} (different : other ≠ key)
    (delta : Int) : (p.addInflight key delta).inflightFor other = p.inflightFor other := by
  unfold inflightFor addInflight
  rw [find?_addTo_of_ne different]

/-- The count of the key is raised; it is lowered where it was positive. -/
theorem inflightFor_addInflight (p : Pool τ) (key : PoolKey) {delta : Int}
    (entered : 0 < delta ∨ p.inflightFor key ≠ 0) :
    (p.addInflight key delta).inflightFor key = p.inflightFor key + delta := by
  unfold inflightFor at *
  simp only [addInflight]
  generalize p.inflight = counts at *
  induction counts with
  | nil =>
      have positive : 0 < delta := by simpa using entered
      simp [addTo, positive]
  | cons kv rest inductionHypothesis =>
      unfold addTo
      by_cases same : kv.1 = key
      · simp [same]
      · simp only [same, if_false, List.find?_cons, decide_false] at entered ⊢
        exact inductionHypothesis entered

@[simp] theorem addInflight_idle (p : Pool τ) (key : PoolKey) (delta : Int) :
    (p.addInflight key delta).idle = p.idle := rfl

/-! ### What the operations do to the parked transports -/

/-- What a search finds and what is left without it are the whole list. -/
theorem perm_of_find? {α : Type} {l : List α} {found : α} {wanted : α → Bool}
    (isFound : l.find? wanted = some found) : l.Perm (found :: l.eraseP wanted) := by
  obtain ⟨wantedFound, before, after, rfl, earlier⟩ := List.find?_eq_some_iff_append.mp isFound
  rw [List.eraseP_append_right _ (by simpa using earlier), List.eraseP_cons_of_pos wantedFound]
  exact List.perm_middle

theorem reuse_eq_some {p next : Pool τ} {key : PoolKey} {t : τ}
    (reused : p.reuse key = some (t, next)) :
    ∃ e idle, e.t = t ∧ e.key = key ∧ p.idle.Perm (e :: idle) ∧
      next = { p with idle }.addInflight key 1 := by
  obtain ⟨e, found, same⟩ := Option.map_eq_some_iff.mp reused
  obtain ⟨rfl, rfl⟩ := Prod.mk.inj same
  refine ⟨e, _, rfl, by simpa [IdleEntry.isFor] using List.find?_some found, ?_, rfl⟩
  have whole := (List.reverse_perm p.idle).symm.trans (perm_of_find? found)
  exact whole.trans ((List.reverse_perm _).symm.cons e)

theorem evict_sublist (maxIdle : Nat) (key : PoolKey) : ∀ (cnt : Nat) (idle : List (IdleEntry τ)),
    (evict maxIdle key cnt idle).Sublist idle := by
  intro cnt
  induction cnt with
  | zero => exact fun idle => List.Sublist.refl idle
  | succ cnt inductionHypothesis =>
      intro idle
      unfold evict
      split
      · exact (inductionHypothesis _).trans List.eraseP_sublist
      · exact List.Sublist.refl idle

/-- The loop counts along with what it removes. -/
theorem countP_evict_le (maxIdle : Nat) (key : PoolKey) :
    ∀ (cnt : Nat) (idle : List (IdleEntry τ)), idle.countP (IdleEntry.isFor key) = cnt →
      (evict maxIdle key cnt idle).countP (IdleEntry.isFor key) ≤ maxIdle := by
  intro cnt
  induction cnt with
  | zero =>
      intro idle counted
      simp [evict, counted]
  | succ cnt inductionHypothesis =>
      intro idle counted
      unfold evict
      split
      · refine inductionHypothesis _ ?_
        have positive : 0 < idle.countP (IdleEntry.isFor key) := by omega
        obtain ⟨e, member, isKey⟩ := List.countP_pos_iff.mp positive
        obtain ⟨found, isFound⟩ := Option.isSome_iff_exists.mp
          (List.find?_isSome.mpr ⟨e, member, isKey⟩)
        have whole := (perm_of_find? isFound).countP_eq (IdleEntry.isFor key)
        rw [List.countP_cons_of_pos (List.find?_some isFound)] at whole
        omega
      · omega

theorem pushIdle_idle_sublist (p : Pool τ) (t : τ) (key : PoolKey) (now : UInt64) :
    (p.pushIdle t key now).idle.Sublist (p.idle ++ [⟨t, key, now⟩]) :=
  evict_sublist _ _ _ _

/-- Parking keeps the bound: of the key by eviction, of another key since nothing is added. -/
theorem countP_pushIdle_le {p : Pool τ} (t : τ) (key : PoolKey) (now : UInt64)
    (bounded : ∀ other, p.idle.countP (IdleEntry.isFor other) ≤ p.cfg.maxIdlePerHost)
    (other : PoolKey) :
    (p.pushIdle t key now).idle.countP (IdleEntry.isFor other) ≤ p.cfg.maxIdlePerHost := by
  by_cases same : other = key
  · rw [same]
    exact countP_evict_le _ _ _ _ rfl
  · refine Nat.le_trans (pushIdle_idle_sublist p t key now).countP_le ?_
    rw [List.countP_append, List.countP_cons_of_neg (by simpa [IdleEntry.isFor] using Ne.symm same),
      List.countP_nil, Nat.add_zero]
    exact bounded other

end Pool

/-! ## Runs -/

namespace Pooling

/-- An acquire that has not returned: it waits for a slot, or its opener runs. -/
inductive Call
  | waiting (key : PoolKey) (waitUntil : UInt64)
  | opening (key : PoolKey)
  deriving Repr, DecidableEq

/-- The pool, the acquires that have not returned (the innermost first), the transports that
callers hold with the keys they were acquired under, and those released as unhealthy.  Transports
are numbered in the order in which they were opened. -/
structure World where
  pool : Pool Nat
  calls : List Call
  held : List (Nat × PoolKey)
  condemned : List Nat
  opened : Nat
  deriving Repr, DecidableEq

inductive Action
  | acquire (key : PoolKey) (now : UInt64)
  /-- The innermost acquire, which waits, looks at the count again. -/
  | wake (now : UInt64)
  /-- The opener of the innermost acquire returns a new transport. -/
  | opened
  /-- The opener of the innermost acquire fails. -/
  | openFailed
  /-- A holder returns its transport, under the key it was acquired under. -/
  | release (t : Nat) (healthy connected : Bool) (now : UInt64)
  | dropIdle
  | reap (now : UInt64)
  deriving Repr, DecidableEq

namespace World

def start (cfg : PoolConfig) : World := ⟨.empty cfg, [], [], [], 0⟩

def heldFor (s : World) (key : PoolKey) : Nat := s.held.countP (·.2 = key)

def parkedFor (s : World) (key : PoolKey) : Nat := s.pool.idle.countP (IdleEntry.isFor key)

/-- The transports that callers hold, then the parked ones. -/
def transports (s : World) : List Nat := s.held.map (·.1) ++ s.pool.idle.map (·.t)

/-- What the capacity loop does next, over the acquires below it. -/
def proceed (s : World) (key : PoolKey) (waitUntil : UInt64) (below : List Call) :
    Pool.Capacity → World
  | .free => { s with calls := .opening key :: below }
  | .timeout => { s with calls := below }
  | .full => { s with calls := .waiting key waitUntil :: below }

/-- One turn of the capacity loop. -/
def await (s : World) (key : PoolKey) (waitUntil now : UInt64) (below : List Call) : World :=
  s.proceed key waitUntil below (s.pool.capacity key waitUntil now)

def acquire (s : World) (key : PoolKey) (now : UInt64) : World :=
  match (s.pool.reapIdle now).reuse key with
  | some (t, pool) => { s with pool, held := (t, key) :: s.held }
  | none => { s with pool := s.pool.reapIdle now }.await key (s.pool.waitUntil now) now s.calls

/-- The opener has returned a transport. -/
def handOut (s : World) (key : PoolKey) (below : List Call) : World :=
  { s with
    pool := s.pool.addInflight key 1
    calls := below
    held := (s.opened, key) :: s.held
    opened := s.opened + 1 }

def giveBack (s : World) (t : Nat) (key : PoolKey) (healthy connected : Bool) (now : UInt64) :
    World :=
  { s with
    pool := s.pool.release t key healthy connected now
    held := s.held.eraseP (·.1 = t)
    condemned := if healthy then s.condemned else t :: s.condemned }

end World

def step (s : World) : Action → Option World
  | .acquire key now => some (s.acquire key now)
  | .wake now =>
      match s.calls with
      | .waiting key waitUntil :: below => some (s.await key waitUntil now below)
      | _ => none
  | .opened =>
      match s.calls with
      | .opening key :: below => some (s.handOut key below)
      | _ => none
  | .openFailed =>
      match s.calls with
      | .opening _ :: below => some { s with calls := below }
      | _ => none
  | .release t healthy connected now =>
      (s.held.find? (·.1 = t)).map fun owner => s.giveBack t owner.2 healthy connected now
  | .dropIdle => some { s with pool := s.pool.dropIdle }
  | .reap now => some { s with pool := s.pool.reapIdle now }

/-! ## Counts and owners -/

/-- What the pool is to guarantee. -/
structure World.Sound (cfg : PoolConfig) (s : World) : Prop where
  counted : ∀ key, s.heldFor key = s.pool.inFlight key
  bounded : ∀ key, s.heldFor key ≤ cfg.maxInFlightPerHost
  parked : ∀ key, s.parkedFor key ≤ cfg.maxIdlePerHost
  once : s.transports.Nodup
  retired : ∀ t ∈ s.condemned, t ∉ s.held.map (·.1)

/-- No transport has two owners, none that was condemned has one, and all come from an opener. -/
structure Owned (transports condemned : List Nat) (opened : Nat) : Prop where
  once : transports.Nodup
  retired : ∀ t ∈ condemned, t ∉ transports
  known : ∀ t ∈ transports, t < opened
  past : ∀ t ∈ condemned, t < opened

/-- What holds in every run, whatever becomes of the capacity. -/
structure World.Accounted (cfg : PoolConfig) (s : World) : Prop where
  config : s.pool.cfg = cfg
  counted : ∀ key, s.pool.inflightFor key = s.heldFor key
  parked : ∀ key, s.parkedFor key ≤ cfg.maxIdlePerHost
  owned : Owned s.transports s.condemned s.opened

theorem World.Accounted.inFlight {cfg : PoolConfig} {s : World} (accounted : s.Accounted cfg)
    (key : PoolKey) : s.pool.inFlight key = s.heldFor key := by
  unfold Pool.inFlight
  rw [accounted.counted, Int.toNat_natCast]

section Owners

variable {transports later condemned : List Nat} {opened : Nat}

theorem Owned.nodup (owned : Owned transports condemned opened)
    (fewer : later.Subperm transports) : later.Nodup := by
  obtain ⟨part, same, among⟩ := fewer
  exact same.nodup_iff.mp (among.nodup owned.once)

theorem Owned.of_subperm (owned : Owned transports condemned opened)
    (fewer : later.Subperm transports) : Owned later condemned opened where
  once := owned.nodup fewer
  retired t member present := owned.retired t member (fewer.subset present)
  known t member := owned.known t (fewer.subset member)
  past := owned.past

/-- A new transport. -/
theorem Owned.open (owned : Owned transports condemned opened) :
    Owned (opened :: transports) condemned (opened + 1) where
  once := List.nodup_cons.mpr
    ⟨fun member => Nat.lt_irrefl _ (owned.known opened member), owned.once⟩
  retired t member present := by
    rcases List.mem_cons.mp present with isNew | before
    · exact Nat.lt_irrefl _ (isNew ▸ owned.past t member)
    · exact owned.retired t member before
  known t member := by
    rcases List.mem_cons.mp member with isNew | before
    · omega
    · exact Nat.lt_succ_of_lt (owned.known t before)
  past t member := Nat.lt_succ_of_lt (owned.past t member)

/-- A transport that leaves for good. -/
theorem Owned.condemn {t : Nat} (owned : Owned transports condemned opened)
    (fewer : (t :: later).Subperm transports) : Owned later (t :: condemned) opened where
  once := (List.nodup_cons.mp (owned.nodup fewer)).2
  retired other member present := by
    rcases List.mem_cons.mp member with isNew | before
    · exact (List.nodup_cons.mp (owned.nodup fewer)).1 (isNew ▸ present)
    · exact owned.retired other before (fewer.subset (List.mem_cons_of_mem t present))
  known other member := owned.known other (fewer.subset (List.mem_cons_of_mem t member))
  past other member := by
    rcases List.mem_cons.mp member with isNew | before
    · exact isNew ▸ owned.known t (fewer.subset List.mem_cons_self)
    · exact owned.past other before

end Owners

section Steps

variable {cfg : PoolConfig} {s next : World}

/-- A step that at most closes parked transports. -/
theorem World.Accounted.of_sublist (accounted : s.Accounted cfg) {idle : List (IdleEntry Nat)}
    (calls : List Call) (fewer : idle.Sublist s.pool.idle) :
    World.Accounted cfg { s with pool := { s.pool with idle }, calls } where
  config := accounted.config
  counted := accounted.counted
  parked key := Nat.le_trans fewer.countP_le (accounted.parked key)
  owned := accounted.owned.of_subperm
    ((List.Sublist.refl _).append (fewer.map fun e => e.t)).subperm

theorem reapIdle_sublist (p : Pool Nat) (now : UInt64) : (p.reapIdle now).idle.Sublist p.idle :=
  List.filter_sublist

theorem accounted_await (accounted : s.Accounted cfg) (key : PoolKey) (waitUntil now : UInt64)
    (below : List Call) : (s.await key waitUntil now below).Accounted cfg := by
  have unchanged (calls : List Call) : World.Accounted cfg { s with calls } :=
    accounted.of_sublist calls (List.Sublist.refl _)
  unfold World.await
  cases s.pool.capacity key waitUntil now with
  | free => exact unchanged _
  | timeout => exact unchanged _
  | full => exact unchanged _

/-- One more transport is held under the key. -/
theorem counted_grow {pool : Pool Nat} {held : List (Nat × PoolKey)}
    (counted : ∀ key, pool.inflightFor key = held.countP (·.2 = key)) (t : Nat)
    (key other : PoolKey) :
    (pool.addInflight key 1).inflightFor other =
      (((t, key) :: held).countP (·.2 = other) : Nat) := by
  by_cases same : other = key
  · rw [same, Pool.inflightFor_addInflight pool key (.inl Int.one_pos), counted,
      List.countP_cons_of_pos (by simp)]
    rfl
  · rw [Pool.inflightFor_addInflight_of_ne pool same, counted,
      List.countP_cons_of_neg (by simpa using Ne.symm same)]

/-- One transport less is held under the key. -/
theorem counted_shrink {pool : Pool Nat} {held left : List (Nat × PoolKey)} {t : Nat}
    {key : PoolKey} (counted : ∀ key, pool.inflightFor key = held.countP (·.2 = key))
    (whole : held.Perm ((t, key) :: left)) (other : PoolKey) :
    (pool.addInflight key (-1)).inflightFor other = (left.countP (·.2 = other) : Nat) := by
  have before := counted other
  rw [whole.countP_eq] at before
  by_cases same : other = key
  · rw [List.countP_cons_of_pos (by simpa using same.symm)] at before
    subst same
    rw [Pool.inflightFor_addInflight pool other (.inr (by omega)), before]
    omega
  · rw [List.countP_cons_of_neg (by simpa using Ne.symm same)] at before
    rw [Pool.inflightFor_addInflight_of_ne pool same, before]

theorem accounted_acquire (accounted : s.Accounted cfg) (key : PoolKey) (now : UInt64) :
    (s.acquire key now).Accounted cfg := by
  have reaped := accounted.of_sublist s.calls (reapIdle_sublist s.pool now)
  unfold World.acquire
  cases reused : (s.pool.reapIdle now).reuse key with
  | none => exact accounted_await reaped _ _ _ _
  | some found =>
      obtain ⟨t, pool⟩ := found
      obtain ⟨e, idle, rfl, ofKey, whole, rfl⟩ := Pool.reuse_eq_some reused
      refine ⟨accounted.config, fun other => ?_, fun other => ?_, ?_⟩
      · exact counted_grow accounted.counted e.t key other
      · have before := reaped.parked other
        have split := whole.countP_eq (IdleEntry.isFor other)
        rw [List.countP_cons] at split
        simp only [World.parkedFor, Pool.addInflight_idle] at before ⊢
        simp only [Pool.reapIdle] at split before
        omega
      · refine reaped.owned.of_subperm (List.Perm.subperm ?_)
        have moved := (whole.map fun e => e.t).append_left (s.held.map (·.1))
        exact List.perm_middle.symm.trans moved.symm

theorem accounted_handOut (accounted : s.Accounted cfg) (key : PoolKey) (below : List Call) :
    (s.handOut key below).Accounted cfg where
  config := accounted.config
  counted := counted_grow accounted.counted s.opened key
  parked := accounted.parked
  owned := accounted.owned.open

/-- A returned transport is parked or closed; its holder is one of those listed. -/
theorem accounted_giveBack (accounted : s.Accounted cfg) {t : Nat} {owner : Nat × PoolKey}
    (holder : s.held.find? (·.1 = t) = some owner) (healthy connected : Bool) (now : UInt64) :
    (s.giveBack t owner.2 healthy connected now).Accounted cfg := by
  obtain ⟨number, key⟩ := owner
  have same : number = t := by simpa using List.find?_some holder
  subst same
  have whole := Pool.perm_of_find? holder
  have counted := counted_shrink accounted.counted whole
  have owners : (number :: ((s.held.eraseP (·.1 = number)).map (·.1) ++
      s.pool.idle.map (·.t))).Perm s.transports :=
    ((whole.map (·.1)).append_right _).symm
  unfold World.giveBack Pool.release
  cases healthy with
  | false =>
      exact ⟨accounted.config, counted, accounted.parked, accounted.owned.condemn owners.subperm⟩
  | true =>
      cases connected with
      | false =>
          refine ⟨accounted.config, counted, accounted.parked, accounted.owned.of_subperm ?_⟩
          exact ((List.sublist_cons_self _ _).subperm).trans owners.subperm
      | true =>
          refine ⟨accounted.config, counted, ?_, accounted.owned.of_subperm ?_⟩
          · have bounded := accounted.parked
            rw [← accounted.config] at bounded ⊢
            exact Pool.countP_pushIdle_le number key now bounded
          · have parked := Pool.pushIdle_idle_sublist (s.pool.addInflight key (-1)) number key now
            have kept := (List.Sublist.refl ((s.held.eraseP (·.1 = number)).map (·.1))).append
              (parked.map (·.t))
            refine kept.subperm.trans (List.Perm.subperm (List.Perm.trans ?_ owners))
            rw [List.map_append, ← List.append_assoc]
            exact List.perm_append_singleton _ _

/-- Every step keeps the books. -/
theorem accounted_step {a : Action} (accounted : s.Accounted cfg)
    (stepped : step s a = some next) : next.Accounted cfg := by
  cases a with
  | acquire key now =>
      cases stepped
      exact accounted_acquire accounted key now
  | wake now =>
      simp only [step] at stepped
      split at stepped
      · rw [← Option.some.inj stepped]
        exact accounted_await accounted _ _ _ _
      · cases stepped
  | opened =>
      simp only [step] at stepped
      split at stepped
      · cases stepped
        exact accounted_handOut accounted _ _
      · cases stepped
  | openFailed =>
      simp only [step] at stepped
      split at stepped
      · cases stepped
        exact accounted.of_sublist _ (List.Sublist.refl _)
      · cases stepped
  | release t healthy connected now =>
      obtain ⟨owner, holder, rfl⟩ := Option.map_eq_some_iff.mp stepped
      exact accounted_giveBack accounted holder healthy connected now
  | dropIdle =>
      cases stepped
      exact accounted.of_sublist _ (List.nil_sublist _)
  | reap now =>
      cases stepped
      exact accounted.of_sublist _ (reapIdle_sublist s.pool now)

end Steps

theorem accounted_start (cfg : PoolConfig) : (World.start cfg).Accounted cfg :=
  ⟨rfl, fun _ => rfl, fun _ => Nat.zero_le _, by simp [World.start, World.transports, Pool.empty],
    by simp [World.start], by simp [World.start, World.transports, Pool.empty],
    by simp [World.start]⟩

/-- **In every run the counts are right, parked transports are bounded, and no transport has two
owners or returns after it was condemned.** -/
theorem accounted_run {cfg : PoolConfig} {actions : List Action} {s : World}
    (ran : Transition.run step (World.start cfg) actions = some s) : s.Accounted cfg :=
  Transition.run_always accounted_step (accounted_start cfg) ran

/-! ## The capacity -/

/-- The step hands a transport out under the key: a parked one, or the one that the opener
returns. -/
def Grants (s : World) (key : PoolKey) : Action → Prop
  | .acquire wanted now => wanted = key ∧ ((s.pool.reapIdle now).reuse key).isSome
  | .opened => s.calls.head? = some (.opening key)
  | _ => False

/-- The condition on a step: when it hands a transport out, the count is below the capacity. -/
def Roomy (s : World) (a : Action) : Prop :=
  ∀ key, Grants s key a → s.pool.inFlight key < s.pool.cfg.maxInFlightPerHost

theorem step_of_grants {s : World} {key : PoolKey} {a : Action} (grants : Grants s key a) :
    ∃ next t, step s a = some next ∧ next.held = (t, key) :: s.held := by
  cases a with
  | acquire wanted now =>
      obtain ⟨rfl, found⟩ := grants
      obtain ⟨⟨t, pool⟩, reused⟩ := Option.isSome_iff_exists.mp found
      exact ⟨_, t, rfl, by simp only [World.acquire, reused]⟩
  | opened =>
      obtain ⟨below, calls⟩ := List.head?_eq_some_iff.mp grants
      exact ⟨s.handOut key below, s.opened, by simp only [step, calls], rfl⟩
  | _ => exact grants.elim

theorem held_await (s : World) (key : PoolKey) (waitUntil now : UInt64) (below : List Call) :
    (s.await key waitUntil now below).held = s.held := by
  unfold World.await
  cases s.pool.capacity key waitUntil now with
  | free => rfl
  | timeout => rfl
  | full => rfl

/-- Any other step hands nothing out. -/
theorem held_sublist_of_not_grants {s next : World} {a : Action} (keeps : ∀ key, ¬ Grants s key a)
    (stepped : step s a = some next) : next.held.Sublist s.held := by
  cases a with
  | acquire key now =>
      have missed : (s.pool.reapIdle now).reuse key = none := by
        simpa [Grants] using keeps key
      rw [← Option.some.inj stepped]
      simp only [World.acquire, missed, held_await]
      exact List.Sublist.refl _
  | wake now =>
      simp only [step] at stepped
      split at stepped
      · rw [← Option.some.inj stepped, held_await]
      · cases stepped
  | opened =>
      simp only [step] at stepped
      split at stepped
      · next key below calls => exact absurd (by simp [Grants, calls]) (keeps key)
      · cases stepped
  | openFailed =>
      simp only [step] at stepped
      split at stepped
      · cases stepped
        exact List.Sublist.refl _
      · cases stepped
  | release t healthy connected now =>
      obtain ⟨owner, -, rfl⟩ := Option.map_eq_some_iff.mp stepped
      exact List.eraseP_sublist
  | dropIdle =>
      cases stepped
      exact List.Sublist.refl _
  | reap now =>
      cases stepped
      exact List.Sublist.refl _

theorem heldFor_grown {s next : World} {t : Nat} {key : PoolKey}
    (grown : next.held = (t, key) :: s.held) (other : PoolKey) :
    next.heldFor other = s.heldFor other + if key = other then 1 else 0 := by
  unfold World.heldFor
  rw [grown, List.countP_cons]
  simp

structure World.Bounded (cfg : PoolConfig) (s : World) : Prop extends s.Accounted cfg where
  bounded : ∀ key, s.heldFor key ≤ cfg.maxInFlightPerHost

section Bound

variable {cfg : PoolConfig} {s next : World} {a : Action}

theorem World.Bounded.sound (holds : s.Bounded cfg) : s.Sound cfg where
  counted key := (holds.inFlight key).symm
  bounded := holds.bounded
  parked := holds.parked
  once := holds.owned.once
  retired t member held := holds.owned.retired t member (List.mem_append_left _ held)

theorem bounded_step (holds : s.Bounded cfg) (roomy : Roomy s a)
    (stepped : step s a = some next) : next.Bounded cfg := by
  refine ⟨accounted_step holds.toAccounted stepped, fun key => ?_⟩
  by_cases granted : ∃ wanted, Grants s wanted a
  · obtain ⟨wanted, grants⟩ := granted
    have room := roomy wanted grants
    rw [holds.config, holds.inFlight] at room
    obtain ⟨reached, t, same, grown⟩ := step_of_grants grants
    obtain rfl : next = reached := Option.some.inj (stepped.symm.trans same)
    rw [heldFor_grown grown]
    split
    · next isWanted =>
        rw [← isWanted]
        omega
    · exact holds.bounded key
  · have fewer := held_sublist_of_not_grants (not_exists.mp granted) stepped
    exact Nat.le_trans fewer.countP_le (holds.bounded key)

/-- A step that hands out at the capacity exceeds it. -/
theorem exceeds_of_not_roomy (holds : s.Bounded cfg) (full : ¬ Roomy s a) :
    ∃ next, step s a = some next ∧ ¬ next.Sound cfg := by
  obtain ⟨key, granted⟩ := not_forall.mp full
  obtain ⟨grants, noRoom⟩ := Classical.not_imp.mp granted
  rw [holds.config, holds.inFlight] at noRoom
  obtain ⟨next, t, stepped, grown⟩ := step_of_grants grants
  refine ⟨next, stepped, fun sound => ?_⟩
  have held := heldFor_grown grown key
  rw [if_pos rfl] at held
  have bounded := sound.bounded key
  omega

end Bound

/-- **The pool keeps its guarantees along a run exactly when every step that hands a transport
out, parked or new, finds the count below the capacity.** -/
theorem sound_iff_roomy (cfg : PoolConfig) (actions : List Action) :
    Transition.Always step (World.Sound cfg) (World.start cfg) actions ↔
      Transition.Meets step Roomy (World.start cfg) actions :=
  Transition.always_iff_meets World.Bounded.sound bounded_step exceeds_of_not_roomy
    ⟨accounted_start cfg, fun _ => Nat.zero_le _⟩

/-- Two ways past a capacity of one: an acquire inside another one's opener, and a transport
parked while an acquire waits, which opens its own and leaves the parked one to the next. -/
theorem sound_fails :
    ¬ Transition.Always step (World.Sound { maxInFlightPerHost := 1 })
        (World.start { maxInFlightPerHost := 1 })
        [.acquire ⟨str "h", 443, true⟩ 0, .acquire ⟨str "h", 443, true⟩ 0, .opened, .opened] ∧
    ¬ Transition.Always step (World.Sound { maxInFlightPerHost := 1 })
        (World.start { maxInFlightPerHost := 1 })
        [.acquire ⟨str "h", 443, true⟩ 0, .opened, .acquire ⟨str "h", 443, true⟩ 1,
          .release 0 true true 2, .wake 2, .opened, .acquire ⟨str "h", 443, true⟩ 3] := by
  have exceeded {actions : List Action}
      (seen : ((Transition.run step (World.start { maxInFlightPerHost := 1 }) actions).any fun s =>
        1 < s.heldFor ⟨str "h", 443, true⟩) = true) :
      ¬ Transition.Always step (World.Sound { maxInFlightPerHost := 1 })
        (World.start { maxInFlightPerHost := 1 }) actions := by
    intro always
    obtain ⟨s, ran, tooMany⟩ := Transition.exists_run_of_any seen
    have bounded := (always.reached ran).bounded ⟨str "h", 443, true⟩
    exact absurd (of_decide_eq_true tooMany) (Nat.not_lt.mpr bounded)
  exact ⟨exceeded (by decide +kernel), exceeded (by decide +kernel)⟩

end Pooling

end Opencodepp.Net
