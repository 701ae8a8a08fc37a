import Mathlib.Data.List.Nodup
import Opencodepp.Core.Timers

/-!
# The turns of the timers

A deadline is a reading of the clock and a delay, added modulo `2 ^ 64`.  As long as none wraps
around, no timer that is put into the heap during a call comes before the ones that are due, and
so every timer that is due gets one turn, in the order of the deadlines.  It is fired in it unless
it was cancelled (`fires_due_timers`).
-/

set_option autoImplicit false

namespace Opencodepp.Core.Timers

open Opencodepp.Library

variable {α : Type} {s : Timers α}

/-! ## Turns -/

/-- The timers that had a turn, in order. -/
def turns (log : List (TimerEvent α)) : List (Timer α) :=
  log.filterMap fun
    | .fired t => some t
    | .passed t => some t
    | _ => none

/-- A timer that was cancelled before the call or in it. -/
def Off (entry : List (Timer α)) (log : List (TimerEvent α)) (id : Nat) : Prop :=
  (∃ t ∈ entry, t.id = id ∧ t.cancelled = true) ∨ .cancelled id ∈ log

/-- A timer that repeats without a pause. -/
def Restless (t : Timer α) : Prop := t.oneshot = false ∧ t.periodMs = 0

/-- The first turn of a timer: it is fired, or passed over when it was cancelled. -/
def HadTurn (entry : List (Timer α)) (log : List (TimerEvent α)) (t : Timer α) : Prop :=
  ∃ before after, (∀ earlier ∈ turns before, earlier.id ≠ t.id) ∧
    ((Off entry before t.id ∧ log = before ++ .passed { t with cancelled := true } :: after) ∨
      (¬Off entry before t.id ∧ log = before ++ .fired { t with cancelled := false } :: after))

/-- A timer that has not had a turn is in the heap, flagged if it was cancelled. -/
def Waiting (entry : List (Timer α)) (log : List (TimerEvent α)) (s : Timers α) (t : Timer α) :
    Prop :=
  (∀ earlier ∈ turns log, earlier.id ≠ t.id) ∧
    ∃ cancelled, { t with cancelled := cancelled } ∈ s.heap ∧
      (cancelled = true ↔ Off entry log t.id)

section Log

variable {entry : List (Timer α)} {log : List (TimerEvent α)} {e : TimerEvent α} {t : Timer α}

theorem turns_append (log more : List (TimerEvent α)) :
    turns (log ++ more) = turns log ++ turns more :=
  List.filterMap_append

theorem HadTurn.append (had : HadTurn entry log t) (more : List (TimerEvent α)) :
    HadTurn entry (log ++ more) t := by
  obtain ⟨before, after, first, passed | fired⟩ := had
  · exact ⟨before, after ++ more, first, .inl ⟨passed.1, by rw [passed.2]; simp⟩⟩
  · exact ⟨before, after ++ more, first, .inr ⟨fired.1, by rw [fired.2]; simp⟩⟩

theorem off_append {more : List (TimerEvent α)} (quiet : ∀ id, .cancelled id ∉ more) {id : Nat} :
    Off entry (log ++ more) id ↔ Off entry log id := by
  unfold Off
  rw [List.mem_append, or_iff_left (quiet id)]

/-- What is fired in a longer log is fired in the log, or at its end. -/
theorem fired_concat {before after : List (TimerEvent α)}
    (split : log ++ [e] = before ++ .fired t :: after) :
    (∃ after', log = before ++ .fired t :: after') ∨ (before = log ∧ e = .fired t) := by
  cases after using List.reverseRecOn with
  | nil =>
      obtain ⟨rfl, same⟩ := List.append_inj' split rfl
      exact .inr ⟨rfl, List.singleton_inj.mp same⟩
  | append_singleton after' last =>
      refine .inl ⟨after', ?_⟩
      rw [← List.cons_append, ← List.append_assoc] at split
      exact (List.append_inj' split rfl).1

end Log

/-! ## The loop -/

/-- A call that began at a reading of the clock, up to a state of it. -/
structure Turning (w : TimerWorld α) (now : UInt64) (entry : List (Timer α))
    (log : List (TimerEvent α)) (s : Timers α) : Prop where
  sound : s.Sound
  clock : now ≤ w.clock s.reads
  past : ∀ t ∈ turns log, t.deadlineMs ≤ now ∧ t.id < s.nextTimerId
  ahead : ∀ t ∈ turns log, ∀ x ∈ s.heap, t.deadlineMs ≤ x.deadlineMs ∧
    (x.id = t.id → Restless t ∨ now < x.deadlineMs)
  ordered : (turns log).Pairwise fun a b =>
    a.deadlineMs ≤ b.deadlineMs ∧ (a.id = b.id → Restless a)
  off : ∀ id, Off entry log id → id < s.nextTimerId ∧
    ∀ x ∈ s.heap, x.id = id → x.cancelled = true
  silent : ∀ before t after, log = before ++ .fired t :: after → ¬Off entry before t.id
  track : ∀ t ∈ entry, Waiting entry log s t ∨ HadTurn entry log t

variable {w : TimerWorld α} {now : UInt64} {entry : List (Timer α)} {log : List (TimerEvent α)}

/-- The event of a turn. -/
def turnEvent (t : Timer α) : TimerEvent α := if t.cancelled then .passed t else .fired t

theorem turns_turnEvent (t : Timer α) : turns [turnEvent t] = [t] := by
  unfold turnEvent
  split <;> rfl

theorem not_lt_of_due {t : Timer α} (due : t.deadlineMs ≤ now) : ¬now < t.deadlineMs :=
  UInt64.not_lt.mpr due

/-- The first timer has its turn. -/
theorem Turning.turn (turning : Turning w now entry log s) {t : Timer α} {rest : List (Timer α)}
    (front : s.heap = t :: rest) (due : t.deadlineMs ≤ now) :
    Turning w now entry (log ++ [turnEvent t]) s.pop := by
  have sound := turning.sound
  have here : t ∈ s.heap := front ▸ List.mem_cons_self
  have perm := (sound.pop_heap front).1
  have left {x : Timer α} (member : x ∈ s.pop.heap) : x ∈ s.heap ∧ x.id ≠ t.id := by
    have inRest := perm.mem_iff.mp member
    exact ⟨front ▸ List.mem_cons_of_mem _ inRest, sound.front_id front x inRest⟩
  have split : turns (log ++ [turnEvent t]) = turns log ++ [t] := by
    rw [turns_append, turns_turnEvent]
  have quiet (id : Nat) : .cancelled id ∉ [turnEvent t] := by
    unfold turnEvent
    split <;> simp
  refine ⟨sound.pop front, turning.clock, ?_, ?_, ?_, ?_, ?_, ?_⟩
  · rw [split, List.forall_mem_append, List.forall_mem_singleton]
    exact ⟨turning.past, due, sound.old t here⟩
  · rw [split, List.forall_mem_append, List.forall_mem_singleton]
    refine ⟨fun a member x inside => turning.ahead a member x (left inside).1,
      fun x inside => ⟨?_, fun same => absurd same (left inside).2⟩⟩
    exact sound.front_le front (left inside).1
  · rw [split, List.pairwise_append]
    refine ⟨turning.ordered, List.pairwise_singleton _ _, fun a member b last => ?_⟩
    rw [List.mem_singleton.mp last]
    obtain ⟨before, again⟩ := turning.ahead a member t here
    exact ⟨before, fun same => (again same.symm).resolve_right (not_lt_of_due due)⟩
  · intro id off
    obtain ⟨old, flagged⟩ := turning.off id ((off_append quiet).mp off)
    exact ⟨old, fun x inside => flagged x (left inside).1⟩
  · intro before fired after whole
    rcases fired_concat whole with ⟨after', earlier⟩ | ⟨rfl, last⟩
    · exact turning.silent before fired after' earlier
    · intro off
      unfold turnEvent at last
      split at last
      · cases last
      · next running =>
          cases last
          exact running ((turning.off _ off).2 t here rfl)
  · intro a member
    rcases turning.track a member with ⟨fresh, cancelled, inside, flagged⟩ | had
    · rw [front, List.mem_cons] at inside
      rcases inside with rfl | inRest
      · refine .inr ⟨log, [], fresh, ?_⟩
        cases cancelled with
        | true => exact .inl ⟨flagged.mp rfl, rfl⟩
        | false => exact .inr ⟨fun off => Bool.false_ne_true (flagged.mpr off), rfl⟩
      · refine .inl ⟨?_, cancelled, perm.mem_iff.mpr inRest, flagged.trans (off_append quiet).symm⟩
        rw [split, List.forall_mem_append, List.forall_mem_singleton]
        exact ⟨fresh, fun same => sound.front_id front _ inRest same.symm⟩
    · exact .inr (had.append _)

/-- What is no turn and cancels nothing changes nothing about the past. -/
theorem turns_quiet {e : TimerEvent α} (quiet : turns [e] = []) :
    turns (log ++ [e]) = turns log := by
  rw [turns_append, quiet, List.append_nil]

theorem add_noWrap {reading delay : UInt64} (fits : reading.toNat + delay.toNat < 2 ^ 64) :
    (reading + delay).toNat = reading.toNat + delay.toNat := by
  rw [UInt64.toNat_add, Nat.mod_eq_of_lt fits]

/-- A timer is put into the heap: a new one, or one that had its turn. -/
theorem Turning.push (turning : Turning w now entry log s) {t : Timer α} {e : TimerEvent α}
    {next reads : Nat} (quiet : turns [e] = []) (calm : ∀ id, .cancelled id ∉ [e])
    (unfired : ∀ x, e ≠ .fired x) (new : ∀ x ∈ s.heap, x.id ≠ t.id)
    (known : s.nextTimerId ≤ next) (old : t.id < next) (read : s.reads ≤ reads)
    (late : now ≤ t.deadlineMs)
    (again : ∀ a ∈ turns log, t.id = a.id → Restless a ∨ now < t.deadlineMs)
    (on : ¬Off entry log t.id) :
    Turning w now entry (log ++ [e])
      { s.push t with nextTimerId := next, reads := reads } := by
  have sound := turning.sound.push new known old
  have inside {x : Timer α} : x ∈ (s.push t).heap ↔ x ∈ s.heap ∨ x = t := mem_push
  refine ⟨⟨sound.heap, sound.ids, sound.old⟩, ?_, ?_, ?_, ?_, ?_, ?_, ?_⟩
  · exact UInt64.le_trans turning.clock (w.monotone read)
  · rw [turns_quiet quiet]
    exact fun a member => ⟨(turning.past a member).1,
      Nat.lt_of_lt_of_le (turning.past a member).2 known⟩
  · rw [turns_quiet quiet]
    intro a member x here
    rcases inside.mp here with before | rfl
    · exact turning.ahead a member x before
    · exact ⟨UInt64.le_trans (turning.past a member).1 late, again a member⟩
  · rw [turns_quiet quiet]
    exact turning.ordered
  · intro id off
    have off := (off_append calm).mp off
    obtain ⟨old', flagged⟩ := turning.off id off
    refine ⟨Nat.lt_of_lt_of_le old' known, fun x here same => ?_⟩
    rcases inside.mp here with before | rfl
    · exact flagged x before same
    · exact absurd (same ▸ off) on
  · intro before fired after whole
    rcases fired_concat whole with ⟨after', earlier⟩ | ⟨rfl, last⟩
    · exact turning.silent before fired after' earlier
    · exact absurd last (unfired fired)
  · intro a member
    rcases turning.track a member with ⟨fresh, cancelled, here, flagged⟩ | had
    · refine .inl ⟨?_, cancelled, inside.mpr (.inl here), flagged.trans (off_append calm).symm⟩
      rw [turns_quiet quiet]
      exact fresh
    · exact .inr (had.append _)

/-- A timer is cancelled. -/
theorem Turning.cancel (turning : Turning w now entry log s) {id : Nat}
    (found : s.heap.any (·.id = id) = true) :
    Turning w now entry (log ++ [.cancelled id]) { s with heap := flagFirst id s.heap } := by
  have sound := turning.sound
  have mapped := flagFirst_eq_map id sound.ids
  have off_iff {j : Nat} : Off entry (log ++ [.cancelled id]) j ↔ Off entry log j ∨ j = id := by
    unfold Off
    rw [List.mem_append, List.mem_singleton, TimerEvent.cancelled.injEq, or_assoc]
  have quiet : turns (log ++ [.cancelled id]) = turns log := turns_quiet rfl
  refine ⟨sound.flagged id, turning.clock, ?_, ?_, ?_, ?_, ?_, ?_⟩
  · rw [quiet]
    exact turning.past
  · rw [quiet]
    intro a member x here
    have here : x ∈ flagFirst id s.heap := here
    rw [mapped] at here
    obtain ⟨y, inside, rfl⟩ := List.mem_map.mp here
    rw [flag_deadlineMs, flag_id]
    exact turning.ahead a member y inside
  · rw [quiet]
    exact turning.ordered
  · intro j off
    obtain ⟨target, member, same⟩ := List.any_eq_true.mp found
    have same := of_decide_eq_true same
    refine ⟨?_, fun x here name => ?_⟩
    · rcases off_iff.mp off with before | rfl
      · exact (turning.off j before).1
      · exact same ▸ sound.old target member
    · have here : x ∈ flagFirst id s.heap := here
      rw [mapped] at here
      obtain ⟨y, inside, rfl⟩ := List.mem_map.mp here
      rw [flag_id] at name
      by_cases mine : y.id = id
      · rw [flag_of_eq mine]
      · rw [flag_of_ne mine]
        rcases off_iff.mp off with before | rfl
        · exact (turning.off j before).2 y inside name
        · exact absurd name mine
  · intro before fired after whole
    rcases fired_concat whole with ⟨after', earlier⟩ | ⟨rfl, last⟩
    · exact turning.silent before fired after' earlier
    · cases last
  · intro a member
    rcases turning.track a member with ⟨fresh, cancelled, here, flagged⟩ | had
    · refine .inl ⟨by rwa [quiet], ?_⟩
      by_cases mine : a.id = id
      · refine ⟨true, ?_, fun _ => off_iff.mpr (.inr mine), fun _ => rfl⟩
        show _ ∈ flagFirst id s.heap
        rw [mapped]
        exact List.mem_map.mpr ⟨_, here, flag_of_eq mine⟩
      · refine ⟨cancelled, ?_, flagged.trans (off_iff.trans (or_iff_left mine)).symm⟩
        show _ ∈ flagFirst id s.heap
        rw [mapped]
        exact List.mem_map.mpr ⟨_, here, flag_of_ne mine⟩
    · exact .inr (had.append _)

/-! ## Rounds -/

/-- No deadline that is made wraps around. -/
def NoWrap (log : List (TimerEvent α)) : Prop :=
  ∀ t reading, .rearmed t reading ∈ log ∨ .added t reading ∈ log →
    reading.toNat + t.periodMs.toNat < 2 ^ 64

theorem noWrap_append {more : List (TimerEvent α)} :
    NoWrap (log ++ more) ↔ NoWrap log ∧ NoWrap more := by
  unfold NoWrap
  simp only [List.mem_append]
  constructor
  · exact fun fits => ⟨fun t r member => fits t r (member.imp .inl .inl),
      fun t r member => fits t r (member.imp .inr .inr)⟩
  · rintro ⟨first, second⟩ t r ((one | one) | (two | two))
    · exact first t r (.inl one)
    · exact second t r (.inl one)
    · exact first t r (.inr two)
    · exact second t r (.inr two)

/-- A deadline that does not wrap around is not before the beginning of the call. -/
theorem le_deadline {reading delay : UInt64} (fits : reading.toNat + delay.toNat < 2 ^ 64)
    (late : now ≤ reading) : now ≤ reading + delay := by
  rw [UInt64.le_iff_toNat_le] at late ⊢
  rw [add_noWrap fits]
  omega

theorem lt_deadline {reading delay : UInt64} (fits : reading.toNat + delay.toNat < 2 ^ 64)
    (late : now ≤ reading) (pause : delay ≠ 0) : now < reading + delay := by
  have positive : delay.toNat ≠ 0 := fun zero => pause (UInt64.toNat_inj.mp zero)
  rw [UInt64.le_iff_toNat_le] at late
  rw [UInt64.lt_iff_toNat_lt, add_noWrap fits]
  omega

/-- What a handler does once. -/
theorem Turning.perform (turning : Turning w now entry log s) (op : TimerOp α)
    (fits : NoWrap (s.perform w op).2) :
    Turning w now entry (log ++ (s.perform w op).2) (s.perform w op).1 := by
  cases op with
  | add delayMs h u oneshot =>
      have made := fits (newTimer w s delayMs h u oneshot) (w.clock s.reads) (.inr (by
        exact List.mem_singleton_self _))
      refine turning.push (t := newTimer w s delayMs h u oneshot) rfl (by simp) (by simp)
        (fun x member => Nat.ne_of_lt (turning.sound.old x member)) (Nat.le_succ _)
        (Nat.lt_succ_self _) (Nat.le_succ _) (le_deadline made turning.clock)
        (fun a member same => ?_) fun off => ?_
      · exact absurd same (Nat.ne_of_gt (turning.past a member).2)
      · exact absurd (turning.off _ off).1 (Nat.lt_irrefl _)
  | cancel id =>
      unfold Timers.perform cancelTimer
      dsimp only
      split
      · next found => exact turning.cancel found
      · rw [if_neg Bool.false_ne_true, List.append_nil]
        exact turning

/-- What a handler does in one call. -/
theorem Turning.feed (ops : List (TimerOp α)) : ∀ {log : List (TimerEvent α)} {s : Timers α},
    Turning w now entry log s → NoWrap (Machine.feed (Timers.perform w) s ops).2 →
      Turning w now entry (log ++ (Machine.feed (Timers.perform w) s ops).2)
        (Machine.feed (Timers.perform w) s ops).1 := by
  induction ops with
  | nil =>
      intro log s turning _
      rw [Machine.feed_nil, List.append_nil]
      exact turning
  | cons op rest inductionHypothesis =>
      intro log s turning fits
      rw [Machine.feed_cons] at fits ⊢
      obtain ⟨first, later⟩ := noWrap_append.mp fits
      rw [← List.append_assoc]
      exact inductionHypothesis (turning.perform op first) later

/-- A timer that is fired is put back if it repeats. -/
theorem Turning.rearm (turning : Turning w now entry log s) {t : Timer α}
    {earlier : List (Timer α)} (last : turns log = earlier ++ [t])
    (new : ∀ x ∈ s.heap, x.id ≠ t.id) (on : ¬Off entry log t.id)
    (fits : NoWrap (s.rearm w t).2) :
    Turning w now entry (log ++ (s.rearm w t).2) (s.rearm w t).1 := by
  unfold Timers.rearm at fits ⊢
  split
  · rw [List.append_nil]
    exact turning
  · next repeats =>
      rw [if_neg repeats] at fits
      have made := fits _ (w.clock s.reads) (.inl (List.mem_singleton_self _))
      have turned : t ∈ turns log := last ▸ List.mem_append_right _ (List.mem_singleton_self t)
      refine turning.push (t := { t with deadlineMs := w.clock s.reads + t.periodMs }) rfl
        (by simp) (by simp) new (Nat.le_refl _) (turning.past t turned).2 (Nat.le_succ _)
        (le_deadline made turning.clock) (fun a member same => ?_) on
      by_cases pause : t.periodMs = 0
      · -- the timer had an earlier turn in this call only if it repeats without a pause
        rw [last] at member
        rcases List.mem_append.mp member with before | here
        · have ordered := turning.ordered
          rw [last, List.pairwise_append] at ordered
          exact .inl ((ordered.2.2 a before t (List.mem_singleton_self t)).2 same.symm)
        · rw [List.mem_singleton.mp here]
          exact .inl ⟨Bool.eq_false_iff.mpr repeats, pause⟩
      · exact .inr (lt_deadline made turning.clock pause)

theorem Turning.called (turning : Turning w now entry log s) (calls : Nat) :
    Turning w now entry log { s with calls := calls } :=
  ⟨⟨turning.sound.heap, turning.sound.ids, turning.sound.old⟩, turning.clock, turning.past,
    turning.ahead, turning.ordered, turning.off, turning.silent, turning.track⟩

/-- What a handler is called for, and what becomes of the timers. -/
def afterFiring (w : TimerWorld α) (s : Timers α) (t : Timer α) :
    Timers α × List (TimerEvent α) :=
  Machine.feed (perform w) { (s.rearm w t).1 with calls := (s.rearm w t).1.calls + 1 }
    (w.handle (s.rearm w t).1.calls t.h t.u t.id)

/-- What a round can do. -/
theorem fireStep_cases {next : Timers α} {events : List (TimerEvent α)}
    (stepped : fireStep w now s = some (next, events)) :
    ∃ t rest, s.heap = t :: rest ∧ t.deadlineMs ≤ now ∧
      ((t.cancelled = true ∧ next = s.pop ∧ events = [.passed t]) ∨
        (t.cancelled = false ∧ next = (s.pop.afterFiring w t).1 ∧
          events = .fired t :: (s.pop.rearm w t).2 ++ (s.pop.afterFiring w t).2)) := by
  unfold fireStep at stepped
  split at stepped
  · cases stepped
  · next t rest front =>
      split at stepped
      · cases stepped
      · next due =>
          refine ⟨t, rest, front, UInt64.not_lt.mp due, ?_⟩
          split at stepped
          · next flagged =>
              cases stepped
              exact .inl ⟨flagged, rfl, rfl⟩
          · next running =>
              cases stepped
              exact .inr ⟨Bool.eq_false_iff.mpr running, rfl, rfl⟩

/-- The loop ends when no timer is due. -/
theorem fireStep_eq_none (sound : s.Sound) (ended : fireStep w now s = none) :
    ∀ t ∈ s.heap, now < t.deadlineMs := by
  unfold fireStep at ended
  split at ended
  · next empty =>
      intro t member
      rw [empty] at member
      exact absurd member List.not_mem_nil
  · next first rest front =>
      split at ended
      · next later =>
          exact fun t member => UInt64.lt_of_lt_of_le later (sound.front_le front member)
      · split at ended <;> cases ended

theorem Turning.fireStep (turning : Turning w now entry log s) {next : Timers α}
    {events : List (TimerEvent α)} (stepped : fireStep w now s = some (next, events))
    (fits : NoWrap events) : Turning w now entry (log ++ events) next := by
  obtain ⟨t, rest, front, due, ⟨flagged, rfl, rfl⟩ | ⟨running, rfl, rfl⟩⟩ :=
    fireStep_cases stepped
  · have turned := turning.turn front due
    unfold turnEvent at turned
    rwa [if_pos flagged] at turned
  · have turned := turning.turn front due
    have event : turnEvent t = .fired t := if_neg (by rw [running]; exact Bool.false_ne_true)
    rw [event] at turned
    have sound := turning.sound
    have off := turned.silent log t [] rfl
    rw [List.cons_append, ← List.singleton_append, noWrap_append, noWrap_append] at fits
    have again := turned.rearm (t := t)
      (show turns (log ++ [.fired t]) = turns log ++ [t] by rw [turns_append]; rfl)
      (fun x member => sound.front_id front x ((sound.pop_heap front).1.mem_iff.mp member))
      (fun off' => off ((off_append (by simp)).mp off')) fits.2.1
    have done := Turning.feed _ (again.called _) fits.2.2
    rw [List.cons_append, ← List.singleton_append, ← List.append_assoc, ← List.append_assoc]
    exact done

/-! ## Calls -/

/-- The states of a call, with what happened up to them. -/
inductive FireRun (w : TimerWorld α) (now : UInt64) (entry : Timers α) :
    List (TimerEvent α) → Timers α → Prop
  | start : FireRun w now entry [] entry
  | step {log events : List (TimerEvent α)} {s next : Timers α} (run : FireRun w now entry log s)
      (stepped : fireStep w now s = some (next, events)) : FireRun w now entry (log ++ events) next

theorem Turning.start (sound : s.Sound) (clock : now ≤ w.clock s.reads) :
    Turning w now s.heap [] s := by
  have same {t x : Timer α} (first : t ∈ s.heap) (second : x ∈ s.heap) (ids : x.id = t.id) :
      x = t := List.inj_on_of_nodup_map sound.ids second first ids
  refine ⟨sound, clock, by simp [turns], by simp [turns], by simp [turns], ?_, by simp, ?_⟩
  · rintro id (⟨t, member, rfl, flagged⟩ | never)
    · exact ⟨sound.old t member, fun x inside ids => same member inside ids ▸ flagged⟩
    · exact absurd never List.not_mem_nil
  · refine fun t member => .inl ⟨by simp [turns], t.cancelled, member, fun flagged =>
      .inl ⟨t, member, rfl, flagged⟩, ?_⟩
    rintro (⟨x, inside, ids, flagged⟩ | never)
    · exact same member inside ids ▸ flagged
    · exact absurd never List.not_mem_nil

theorem FireRun.turning {reached : Timers α} (run : FireRun w now s log reached)
    (sound : s.Sound) (clock : now ≤ w.clock s.reads) (fits : NoWrap log) :
    Turning w now s.heap log reached := by
  induction run with
  | start => exact Turning.start sound clock
  | step run stepped inductionHypothesis =>
      obtain ⟨before, here⟩ := noWrap_append.mp fits
      exact (inductionHypothesis before).fireStep stepped here

/-- The loop follows the rounds of a call to their end. -/
theorem fireRun_of_fireLoop {entry : Timers α} (fuel : Nat) :
    ∀ {log events : List (TimerEvent α)} {s last : Timers α}, FireRun w now entry log s →
      fireLoop w now fuel s = some (last, events) →
        FireRun w now entry (log ++ events) last ∧ fireStep w now last = none := by
  induction fuel with
  | zero => exact fun _ never => nomatch never
  | succ fuel inductionHypothesis =>
      intro log events s last run looped
      unfold fireLoop at looped
      split at looped
      · next ended =>
          cases looped
          rw [List.append_nil]
          exact ⟨run, ended⟩
      · next next first stepped =>
          obtain ⟨⟨last', later⟩, rest, same⟩ := Option.map_eq_some_iff.mp looped
          cases same
          rw [← List.append_assoc]
          exact inductionHypothesis (run.step stepped) rest

/-! ## The end of a call -/

/-- How many timers are due. -/
def dueCount (now : UInt64) (s : Timers α) : Nat := s.heap.countP (·.deadlineMs ≤ now)

theorem dueCount_push {t : Timer α} (later : now < t.deadlineMs) (s : Timers α) :
    dueCount now (s.push t) = dueCount now s := by
  unfold dueCount
  rw [(s.push_perm t).countP_eq, List.countP_append, List.countP_singleton,
    if_neg (by simpa using later), Nat.add_zero]

theorem dueCount_flagFirst (id : Nat) (heap : List (Timer α)) :
    (flagFirst id heap).countP (·.deadlineMs ≤ now) = heap.countP (·.deadlineMs ≤ now) := by
  induction heap with
  | nil => rfl
  | cons t rest inductionHypothesis =>
      unfold flagFirst
      split
      · rw [List.countP_cons, List.countP_cons]
      · rw [List.countP_cons, List.countP_cons, inductionHypothesis]

theorem dueCount_feed (ops : List (TimerOp α)) : ∀ {s : Timers α},
    (∀ t reading, .added t reading ∈ (Machine.feed (perform w) s ops).2 → now < t.deadlineMs) →
      dueCount now (Machine.feed (perform w) s ops).1 = dueCount now s := by
  induction ops with
  | nil => exact fun _ => rfl
  | cons op rest inductionHypothesis =>
      intro s later
      rw [Machine.feed_cons] at later ⊢
      refine (inductionHypothesis fun t r member =>
        later t r (List.mem_append_right _ member)).trans ?_
      cases op with
      | add delayMs h u oneshot =>
          exact dueCount_push (later _ _ (List.mem_append_left _ (List.mem_singleton_self _))) s
      | cancel id =>
          show dueCount now (s.cancelTimer id).2 = _
          unfold cancelTimer
          split
          · exact dueCount_flagFirst id s.heap
          · rfl

/-- A round that puts no due timer into the heap leaves one due timer less. -/
theorem Turning.dueCount_lt (turning : Turning w now entry log s) {next : Timers α}
    {events : List (TimerEvent α)} (stepped : Timers.fireStep w now s = some (next, events))
    (fits : NoWrap events) (added : ∀ t reading, .added t reading ∈ events → now < t.deadlineMs)
    (repeats : ∀ t reading, .rearmed t reading ∈ events → t.periodMs ≠ 0) :
    dueCount now next < dueCount now s := by
  obtain ⟨t, rest, front, due, cases_⟩ := fireStep_cases stepped
  have popped : dueCount now s.pop < dueCount now s := by
    unfold dueCount
    rw [(turning.sound.pop_heap front).1.countP_eq, front, List.countP_cons,
      if_pos (by simpa using due)]
    exact Nat.lt_succ_self _
  rcases cases_ with ⟨-, rfl, -⟩ | ⟨-, rfl, rfl⟩
  · exact popped
  · have handled : dueCount now (s.pop.afterFiring w t).1 = dueCount now (s.pop.rearm w t).1 :=
      dueCount_feed _ fun x r member => added x r (List.mem_append_right _ member)
    have again : dueCount now (s.pop.rearm w t).1 = dueCount now s.pop := by
      unfold Timers.rearm at fits repeats ⊢
      split
      · rfl
      · next put =>
          rw [if_neg put] at fits repeats
          have here : TimerEvent.rearmed { t with deadlineMs := w.clock s.pop.reads + t.periodMs }
              (w.clock s.pop.reads) ∈ .fired t :: [TimerEvent.rearmed
                { t with deadlineMs := w.clock s.pop.reads + t.periodMs } (w.clock s.pop.reads)] ++
                  (s.pop.afterFiring w t).2 := by simp
          exact dueCount_push (lt_deadline (fits _ _ (.inl here)) turning.clock
            (repeats _ _ here)) s.pop
    rwa [handled, again]

/-- What is asked of a call for it to end: no deadline wraps around, handlers add no timer that is
already due, and the repeating timers that are fired have a period. -/
structure Pausing (now : UInt64) (log : List (TimerEvent α)) : Prop where
  fits : NoWrap log
  added : ∀ t reading, .added t reading ∈ log → now < t.deadlineMs
  repeats : ∀ t reading, .rearmed t reading ∈ log → t.periodMs ≠ 0

theorem fireLoop_isSome {first : Timers α} (sound : first.Sound)
    (clock : now ≤ w.clock first.reads)
    (pausing : ∀ log reached, FireRun w now first log reached → Pausing now log) (n : Nat) :
    ∀ {log : List (TimerEvent α)} {s : Timers α}, FireRun w now first log s →
      dueCount now s ≤ n → (fireLoop w now (n + 1) s).isSome = true := by
  induction n with
  | zero =>
      intro log s run few
      unfold fireLoop
      split
      · rfl
      · next next events stepped =>
          have less := (run.turning sound clock (pausing log s run).fits).dueCount_lt stepped
            (noWrap_append.mp (pausing _ next (run.step stepped)).fits).2
            (fun t r member =>
              (pausing _ next (run.step stepped)).added t r (List.mem_append_right _ member))
            (fun t r member =>
              (pausing _ next (run.step stepped)).repeats t r (List.mem_append_right _ member))
          omega
  | succ n inductionHypothesis =>
      intro log s run few
      unfold fireLoop
      split
      · rfl
      · next next events stepped =>
          have less := (run.turning sound clock (pausing log s run).fits).dueCount_lt stepped
            (noWrap_append.mp (pausing _ next (run.step stepped)).fits).2
            (fun t r member =>
              (pausing _ next (run.step stepped)).added t r (List.mem_append_right _ member))
            (fun t r member =>
              (pausing _ next (run.step stepped)).repeats t r (List.mem_append_right _ member))
          rw [Option.isSome_map]
          exact inductionHypothesis (run.step stepped) (by omega)

/-! ## What a call does -/

/-- A call up to a state of it: the timers are a heap; they had their turns in the order of the
deadlines, none of them twice unless it repeats without a pause; none was fired after it was
cancelled; and at the end of the call every timer that was due had its turn. -/
structure Fires (w : TimerWorld α) (now : UInt64) (entry : Timers α) (log : List (TimerEvent α))
    (reached : Timers α) : Prop where
  heap : BinaryHeap.IsHeap Timer.key reached.heap
  ordered : (turns log).Pairwise fun a b => a.deadlineMs ≤ b.deadlineMs
  once : (turns log).Pairwise fun a b => a.id = b.id → Restless a
  silent : ∀ before t after, log = before ++ .fired t :: after → ¬Off entry.heap before t.id
  due : fireStep w now reached = none → ∀ t ∈ entry.heap, t.deadlineMs ≤ now →
    HadTurn entry.heap log t

theorem Turning.fires {reached : Timers α} (turning : Turning w now s.heap log reached) :
    Fires w now s log reached where
  heap := turning.sound.heap
  ordered := turning.ordered.imp fun both => both.1
  once := turning.ordered.imp fun both => both.2
  silent := turning.silent
  due ended t member due := by
    rcases turning.track t member with ⟨-, cancelled, inside, -⟩ | had
    · exact absurd (fireStep_eq_none turning.sound ended _ inside) (not_lt_of_due due)
    · exact had

/-- What a call of the loop sees when it begins. -/
def entered (s : Timers α) : Timers α := { s with reads := s.reads + 1 }

/-- How many handlers were called. -/
def handledIn (log : List (TimerEvent α)) : Nat :=
  log.countP fun | .fired _ => true | _ => false

/-- **A call fires the timers that are due.**  As long as no deadline wraps around, every timer
that is due at the beginning has one turn, in the order of the deadlines, and is fired in it unless
it was cancelled before.  A call in which moreover no timer is put into the heap that is already
due comes to its end. -/
theorem fires_due_timers (w : TimerWorld α) {s : Timers α} (sound : s.Sound) :
    (∀ log reached, FireRun w (w.clock s.reads) s.entered log reached → NoWrap log →
      Fires w (w.clock s.reads) s.entered log reached) ∧
    (∀ fuel handled last, fireDueTimers w fuel s = some (handled, last) →
      ∃ log, FireRun w (w.clock s.reads) s.entered log last ∧
        fireStep w (w.clock s.reads) last = none ∧ handled = handledIn log) ∧
    ((∀ log reached, FireRun w (w.clock s.reads) s.entered log reached →
        Pausing (w.clock s.reads) log) →
      ∃ fuel, (fireDueTimers w fuel s).isSome = true) := by
  have entered : s.entered.Sound := ⟨sound.heap, sound.ids, sound.old⟩
  have clock : w.clock s.reads ≤ w.clock s.entered.reads := w.monotone (Nat.le_succ _)
  refine ⟨fun log reached run fits => (run.turning entered clock fits).fires,
    fun fuel handled last called => ?_, fun pausing => ?_⟩
  · obtain ⟨⟨last', log⟩, looped, same⟩ := Option.map_eq_some_iff.mp called
    cases same
    obtain ⟨run, ended⟩ := fireRun_of_fireLoop fuel .start looped
    exact ⟨log, run, ended, rfl⟩
  · refine ⟨dueCount (w.clock s.reads) s.entered + 1, ?_⟩
    have looped := fireLoop_isSome entered clock pausing _ .start (Nat.le_refl _)
    unfold fireDueTimers
    rw [Option.isSome_map]
    exact looped

/-! ## Deadlines that wrap around -/

/-- A clock that stands still, and handlers that do nothing. -/
def still : TimerWorld Unit where
  clock _ := 5
  monotone _ := UInt64.le_refl 5
  handle _ _ _ _ := []

theorem fires_due_timers_still :
    Fires still 5 (empty.addTimer still 0 () 0 true).2.entered
      [.fired (newTimer still empty 0 () 0 true)] ⟨[], 2, 2, 1⟩ :=
  (fires_due_timers still (sound_empty.addTimer still 0 () 0 true)).1 _ _
    (.step .start rfl) (fun t r member => by simp at member)

/-- A timer that is due and repeats after the longest time there is. -/
def rareTimer : Timer Unit := ⟨1, 5, 0xFFFFFFFFFFFFFFFF, (), 0, false, false⟩

/-- **A period that wraps around is due at once.**  The timer is fired a second time in the call,
at a deadline before the first one. -/
theorem rareTimer_fires_twice :
    Sound ⟨[rareTimer], 2, 0, 0⟩ ∧
      ∃ log reached, FireRun still 5 (entered ⟨[rareTimer], 2, 0, 0⟩) log reached ∧
        (turns log).map (fun t => (t.id, t.deadlineMs)) = [(1, 5), (1, 4)] ∧
        ¬Fires still 5 (entered ⟨[rareTimer], 2, 0, 0⟩) log reached := by
  refine ⟨⟨by decide, by decide, by decide⟩, _, _, .step (.step .start rfl) rfl, rfl,
    fun fires => ?_⟩
  have order := fires.ordered
  exact absurd order (by decide)

/-- A timer that is due and repeats without a pause. -/
def restlessTimer : Timer Unit := ⟨1, 5, 0, (), 0, false, false⟩

/-- The timer is put back as it was. -/
theorem fireStep_restless (reads calls : Nat) :
    fireStep still 5 ⟨[restlessTimer], 2, reads, calls⟩ =
      some (⟨[restlessTimer], 2, reads + 1, calls + 1⟩,
        [.fired restlessTimer, .rearmed restlessTimer 5]) := by
  have again : rearm still ⟨[], 2, reads, calls⟩ restlessTimer =
      (⟨[restlessTimer], 2, reads + 1, calls⟩, [.rearmed restlessTimer 5]) := by
    have same : { restlessTimer with deadlineMs := 5 + restlessTimer.periodMs } =
        restlessTimer := by decide
    have heap : BinaryHeap.pushHeap Timer.key ([] ++ [restlessTimer]) = [restlessTimer] :=
      BinaryHeap.pushHeap_singleton restlessTimer
    unfold rearm push
    rw [if_neg (by decide), show still.clock reads = 5 from rfl, same]
    dsimp only
    rw [heap]
  have due : ¬(5 : UInt64) < restlessTimer.deadlineMs := by decide
  unfold fireStep
  dsimp only
  rw [if_neg due, if_neg (by decide),
    show (BinaryHeap.popHeap Timer.key [restlessTimer]).dropLast = [] from rfl, again]
  rfl

/-- A call never ends while the clock stands still at a timer without a period. -/
theorem restless_never_ends (fuel reads calls : Nat) :
    fireDueTimers still fuel ⟨[restlessTimer], 2, reads, calls⟩ = none := by
  have looped : ∀ reads calls : Nat,
      fireLoop still 5 fuel ⟨[restlessTimer], 2, reads, calls⟩ = none := by
    induction fuel with
    | zero => exact fun _ _ => rfl
    | succ fuel inductionHypothesis =>
        intro reads calls
        unfold fireLoop
        rw [fireStep_restless]
        dsimp only
        rw [inductionHypothesis]
        rfl
  unfold fireDueTimers
  rw [show still.clock _ = 5 from rfl, looped]
  rfl

end Opencodepp.Core.Timers
