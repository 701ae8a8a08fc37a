import Opencodepp.Memory.Upsert

/-!
# In what order entries are recycled

Entries under different keys that are written into a workspace one after the other fill its slots
like a row (`filled_ring`).  A slot keeps its place when it is used again, and what is used next
goes by the time of the entries alone.  So the slots are used first in, first out when the times
of the writes are in turn, and where the values differ only then: `recycled_in_turn`.
-/

set_option autoImplicit false

namespace Opencodepp.Memory

open Opencodepp.Core
open Opencodepp.Library
open Opencodepp.Store

/-! ## One workspace -/

section Ring

variable (root : Bytes) (caps : MemoryCfg)

/-- One more entry among those of the workspace. -/
def shelve (entries : List Entry) (e : Entry) : List Entry :=
  Keyed.put Entry.key (placed root caps entries e).stored entries

/-- The entries of a workspace after writes one after the other. -/
def ring (es : List Entry) : List Entry := es.foldl (shelve root caps) []

theorem ring_concat (es : List Entry) (e : Entry) :
    ring root caps (es ++ [e]) = shelve root caps (ring root caps es) e := by
  unfold ring
  rw [List.foldl_append]
  rfl

/-- What decides about a slot, and what is of interest in it. -/
def slot (e : Entry) : Nat × Bytes := (e.createdAt.toNat, e.value)

/-- The time and the value under which a write is stored. -/
def slotOf (e : Entry) : Nat × Bytes := slot e.stored

theorem slot_placed (existing : List Entry) (e : Entry) :
    slot (placed root caps existing e).stored = slotOf e := by
  obtain ⟨key, form, -⟩ := recycled_eq existing caps { e with scope := workspaceScope root }
  unfold placed
  rw [form]
  rfl

theorem keys_ring_distinct (es : List Entry) : ((ring root caps es).map Entry.key).Nodup := by
  induction es using List.reverseRecOn with
  | nil => exact List.nodup_nil
  | append_singleton es e inductionHypothesis =>
      rw [ring_concat]
      exact Keyed.nodup_put _ inductionHypothesis

/-- The keys in a workspace are among those that were written. -/
theorem keys_ring_subset (es : List Entry) :
    ∀ x ∈ ring root caps es, x.key ∈ es.map Entry.key := by
  induction es using List.reverseRecOn with
  | nil => exact fun x member => absurd member List.not_mem_nil
  | append_singleton es e inductionHypothesis =>
      intro x member
      rw [ring_concat] at member
      rw [List.map_append]
      rcases Keyed.mem_put Entry.key member with rfl | old
      · rcases key_placed root caps (ring root caps es) e with own | ⟨o, there, taken⟩
        · exact List.mem_append_right _ (List.mem_singleton.mpr own)
        · refine List.mem_append_left _ ?_
          show (placed root caps (ring root caps es) e).key ∈ _
          rw [taken]
          exact inductionHypothesis o there
      · exact List.mem_append_left _ (inductionHypothesis x old)

variable {root caps}

/-- **Writes under different keys fill the slots of a workspace.** -/
theorem filled_ring (some_ : 0 < caps.maxEntries.toNat) (es : List Entry)
    (distinct : (es.map Entry.key).Nodup) :
    Ring.Filled Prod.fst caps.maxEntries.toNat (es.map slotOf) ((ring root caps es).map slot) := by
  induction es using List.reverseRecOn with
  | nil => exact .start
  | append_singleton es e inductionHypothesis =>
      rw [List.map_append, List.nodup_append] at distinct
      obtain ⟨earlier, -, apart⟩ := distinct
      have fresh : ∀ old ∈ ring root caps es, old.key ≠ e.key := fun old member =>
        apart _ (keys_ring_subset root caps es old member) _ (List.mem_singleton_self _)
      have slotted := slot_placed root caps (ring root caps es) e
      rw [List.map_append, ring_concat]
      refine (inductionHypothesis earlier).write ?_
      unfold shelve
      by_cases full : caps.maxEntries.toNat ≤ (ring root caps es).length
      · cases found : oldest (ring root caps es) with
        | none =>
            rw [(Ring.oldest_eq_none_iff _ _).mp found] at full
            exact absurd some_ (Nat.not_lt.mpr full)
        | some o =>
            have key : (placed root caps (ring root caps es) e).stored.key = o.key := by
              unfold placed recycled
              rw [if_pos full, found]
              rfl
            obtain ⟨before, after, split, first⟩ := Ring.exists_firstLeast _ found
            have distinct := keys_ring_distinct root caps es
            rw [split] at distinct full slotted key ⊢
            rw [Keyed.put_of_split distinct key, List.map_append, List.map_append, List.map_cons,
              List.map_cons, slotted]
            refine .full _ (by simpa using full) ⟨?_, ?_⟩
            · rintro x inside
              obtain ⟨y, member, rfl⟩ := List.mem_map.mp inside
              exact first.before y member
            · rintro x inside
              obtain ⟨y, member, rfl⟩ := List.mem_map.mp inside
              exact first.after y member
      · have key : (placed root caps (ring root caps es) e).stored.key = e.key := by
          unfold placed recycled
          rw [if_neg full]
          rfl
        rw [Keyed.put_of_absent Entry.key fun old member => key ▸ fresh old member,
          List.map_append, List.map_singleton, slotted]
        exact .room _ (by simpa using full)

end Ring

/-! ## The store -/

section Calls

variable (caps : MemoryCfg)

/-- Calls for any workspaces under fixed caps. -/
def underCaps (calls : List (Bytes × Entry)) : List Write :=
  calls.map fun call => ⟨call.1, call.2, caps⟩

/-- The entries of the calls for a workspace that are not turned down. -/
def accepted (root : Bytes) (calls : List (Bytes × Entry)) : List Entry :=
  (calls.filter fun call => call.1 = root && (validateEntry call.2 caps).isOk).map (·.2)

theorem writeEntry_of_invalid {s : MemStore} {root : Bytes} {e : Entry} {failure : Failure}
    (invalid : validateEntry e caps = .error failure) :
    writeEntry s root e caps = .error failure := by
  have same : validateEntry { e with scope := workspaceScope root } caps = .error failure := invalid
  unfold writeEntry
  dsimp only
  rw [same]

theorem writeEntry_of_valid (s : MemStore) (root : Bytes) {e : Entry}
    (valid : validateEntry e caps = .ok ()) : ∃ id s', writeEntry s root e caps = .ok (id, s') := by
  have same : validateEntry { e with scope := workspaceScope root } caps = .ok () := valid
  unfold writeEntry
  dsimp only
  rw [same]
  exact ⟨_, _, rfl⟩

theorem accepted_concat (root : Bytes) (calls : List (Bytes × Entry)) (call : Bytes × Entry) :
    accepted caps root (calls ++ [call]) = accepted caps root calls ++
      if call.1 = root && (validateEntry call.2 caps).isOk then [call.2] else [] := by
  unfold accepted
  rw [List.filter_append, List.map_append]
  refine congrArg (_ ++ ·) ?_
  cases kind : call.1 = root && (validateEntry call.2 caps).isOk with
  | false => simp [kind]
  | true => simp [kind]

/-- **A workspace holds what its own accepted calls have made of it.** -/
theorem readEntries_underCaps (root : Bytes) (calls : List (Bytes × Entry)) :
    readEntries (runWrites .empty (underCaps caps calls)) root none =
      ring root caps (accepted caps root calls) := by
  induction calls using List.reverseRecOn with
  | nil => rfl
  | append_singleton calls call inductionHypothesis =>
      have kept := kept_runWrites (underCaps caps calls)
      have ran : runWrites .empty (underCaps caps (calls ++ [call])) =
          Write.run (runWrites .empty (underCaps caps calls)) ⟨call.1, call.2, caps⟩ := by
        unfold runWrites underCaps
        rw [List.map_append, List.foldl_append]
        rfl
      rw [ran, accepted_concat]
      unfold Write.run
      dsimp only
      cases valid : validateEntry call.2 caps with
      | error failure =>
          rw [writeEntry_of_invalid caps valid, inductionHypothesis]
          simp [Except.isOk, Except.toBool]
      | ok done =>
          obtain ⟨id, s', ok⟩ := writeEntry_of_valid caps
            (runWrites .empty (underCaps caps calls)) call.1 valid
          obtain ⟨-, here, elsewhere⟩ := readEntries_writeEntry kept ok
          rw [ok]
          dsimp only
          by_cases same : call.1 = root
          · subst same
            rw [here, inductionHypothesis, if_pos (by simp [Except.isOk, Except.toBool]),
              ring_concat]
            rfl
          · rw [elsewhere root (fun h => same h.symm) none, inductionHypothesis,
              if_neg (by simp [same]), List.append_nil]

/-- After any more than `maxEntries` accepted calls the values in the workspace are those of the
last ones. -/
def RecycledInOrder (root : Bytes) (calls : List (Bytes × Entry)) : Prop :=
  ∀ earlier, earlier <+: calls → caps.maxEntries.toNat < (accepted caps root earlier).length →
    ((readEntries (runWrites .empty (underCaps caps earlier)) root none).map (·.value)).Perm
      (((accepted caps root earlier).drop
        ((accepted caps root earlier).length - caps.maxEntries.toNat)).map (·.value))

/-- Every part of what was accepted was accepted by a part of the calls. -/
theorem exists_prefix_of_accepted (root : Bytes) (calls : List (Bytes × Entry)) {k : Nat}
    (inside : k ≤ (accepted caps root calls).length) :
    ∃ earlier, earlier <+: calls ∧ accepted caps root earlier = (accepted caps root calls).take k := by
  induction calls using List.reverseRecOn with
  | nil => exact ⟨[], List.prefix_refl _, by simp [accepted]⟩
  | append_singleton calls call inductionHypothesis =>
      by_cases all : k = (accepted caps root (calls ++ [call])).length
      · exact ⟨_, List.prefix_refl _, by rw [all, List.take_length]⟩
      · have less : k ≤ (accepted caps root calls).length := by
          have step := accepted_concat caps root calls call
          have length := congrArg List.length step
          rw [List.length_append] at length
          have one : (if call.1 = root && (validateEntry call.2 caps).isOk then [call.2]
              else []).length ≤ 1 := by
            split <;> simp
          omega
        obtain ⟨earlier, part, same⟩ := inductionHypothesis less
        refine ⟨earlier, part.trans (List.prefix_append _ _), ?_⟩
        rw [same, accepted_concat, List.take_append_of_le_length less]

theorem accepted_prefix {root : Bytes} {earlier calls : List (Bytes × Entry)}
    (part : earlier <+: calls) : accepted caps root earlier <+: accepted caps root calls := by
  obtain ⟨more, rfl⟩ := part
  unfold accepted
  rw [List.filter_append, List.map_append]
  exact List.prefix_append _ _

/-- **Entries are recycled in the order in which they were written when their times are in turn**,
and where the values differ only then. -/
theorem recycled_in_turn (some_ : 0 < caps.maxEntries.toNat) (root : Bytes)
    (calls : List (Bytes × Entry)) (distinct : ((accepted caps root calls).map Entry.key).Nodup) :
    (Ring.InTurn Prod.fst caps.maxEntries.toNat ((accepted caps root calls).map slotOf) →
      RecycledInOrder caps root calls) ∧
    (((accepted caps root calls).map (·.value)).Nodup → RecycledInOrder caps root calls →
      Ring.InTurn Prod.fst caps.maxEntries.toNat ((accepted caps root calls).map slotOf)) := by
  have values (es : List Entry) : (es.map slotOf).map Prod.snd = es.map (·.value) := by
    rw [List.map_map]
    rfl
  have slotted (es : List Entry) : (es.map slot).map Prod.snd = es.map (·.value) := by
    rw [List.map_map]
    rfl
  constructor
  · intro turn earlier part many
    have sub : accepted caps root earlier <+: accepted caps root calls := accepted_prefix caps part
    have filled : Ring.Filled Prod.fst caps.maxEntries.toNat
        ((accepted caps root earlier).map slotOf)
        ((ring root caps (accepted caps root earlier)).map slot) :=
      filled_ring some_ _ (distinct.sublist (sub.sublist.map Entry.key))
    have laps := Ring.filled_inTurn some_ filled (turn.of_prefix (sub.map slotOf))
    have perm := (laps.perm (by rw [List.length_map]; omega)).map Prod.snd
    rw [← List.map_drop, values, slotted, List.length_map] at perm
    rw [readEntries_underCaps]
    exact perm
  · intro different order
    refine Ring.inTurn_of_fifo Prod.snd some_
      (fun k => (ring root caps ((accepted caps root calls).take k)).map slot)
      (by rw [values]; exact different) (fun k inside => ?_) fun k inside many => ?_
    · rw [← List.map_take]
      exact filled_ring some_ _ (distinct.sublist ((List.take_sublist k _).map Entry.key))
    · rw [List.length_map] at inside
      obtain ⟨earlier, part, same⟩ := exists_prefix_of_accepted caps root calls inside
      have length : (accepted caps root earlier).length = k := by
        rw [same, List.length_take, Nat.min_eq_left inside]
      have perm := order earlier part (by omega)
      rw [readEntries_underCaps, length, same] at perm
      rw [slotted, ← List.map_take, ← List.map_drop, values]
      exact perm

end Calls

/-! ## Four writes into two slots -/

/-- Writes at four moments. -/
def fourNotes (times : List UInt64) : List (Bytes × Entry) :=
  ([note "a" "1", note "b" "2", note "c" "3", note "d" "4"].zip times).map fun entry =>
    (str "/w", { entry.1 with createdAt := entry.2 })

/-- With a clock that goes on the last two values are there. -/
theorem recycled_in_order_timed : RecycledInOrder twoSlots (str "/w") (fourNotes [1, 2, 3, 4]) :=
  (recycled_in_turn twoSlots (by decide) (str "/w") (fourNotes [1, 2, 3, 4]) (by decide +kernel)).1
    (by decide +kernel)

/-- Without one the first slot is used again and again: of four values the second one stays. -/
theorem not_recycled_in_order_untimed :
    ((accepted twoSlots (str "/w") (fourNotes [0, 0, 0, 0])).map Entry.key).Nodup ∧
      (accepted twoSlots (str "/w") (fourNotes [0, 0, 0, 0])).length = 4 ∧
      (readEntries (runWrites .empty (underCaps twoSlots (fourNotes [0, 0, 0, 0]))) (str "/w")
        none).map (·.value) = [str "4", str "2"] ∧
      ¬RecycledInOrder twoSlots (str "/w") (fourNotes [0, 0, 0, 0]) := by
  refine ⟨by decide +kernel, by decide +kernel, by decide +kernel, fun order => ?_⟩
  have last := order _ (List.prefix_refl _) (by decide +kernel)
  exact absurd last (by decide +kernel)

end Opencodepp.Memory
