import Mathlib.Data.List.Basic
import Mathlib.Data.List.Infix
import Mathlib.Data.List.Perm.Basic
import Mathlib.Order.Lattice

/-!
# Slots that are used again

A row of at most so many slots is filled one after the other; once it is full, a new value takes
the slot of the value with the least time, the first one of them when there are several.  The
slots are used first in, first out exactly when at every write the value that has been there
longest is older than those written since the row was last gone round, and not younger than the
rest (`filled_inTurn` with `Laps.perm`, and `inTurn_of_fifo`).
-/

set_option autoImplicit false

namespace Opencodepp.Library.Ring

variable {β ω τ : Type} [LinearOrder τ] (time : β → τ)

/-- The value with the least time, found in one pass. -/
def oldest (slots : List β) : Option β :=
  slots.foldl (fun out x =>
    match out with
    | none => some x
    | some o => if time x < time o then some x else some o) none

/-- The value between the two parts is the first one with the least time. -/
structure FirstLeast (before : List β) (o : β) (after : List β) : Prop where
  before : ∀ x ∈ before, time o < time x
  after : ∀ x ∈ after, time o ≤ time x

theorem oldest_concat (slots : List β) (x : β) :
    oldest time (slots ++ [x]) =
      match oldest time slots with
      | none => some x
      | some o => if time x < time o then some x else some o := by
  unfold oldest
  rw [List.foldl_append]
  rfl

theorem oldest_eq_none_iff (slots : List β) : oldest time slots = none ↔ slots = [] := by
  cases slots using List.reverseRecOn with
  | nil => exact ⟨fun _ => rfl, fun _ => rfl⟩
  | append_singleton earlier x =>
      rw [oldest_concat]
      refine ⟨fun nothing => ?_, fun nothing => by simp at nothing⟩
      cases found : oldest time earlier with
      | none => simp [found] at nothing
      | some o =>
          rw [found] at nothing
          dsimp only at nothing
          split at nothing <;> cases nothing

theorem exists_firstLeast {slots : List β} {o : β} (found : oldest time slots = some o) :
    ∃ before after, slots = before ++ o :: after ∧ FirstLeast time before o after := by
  induction slots using List.reverseRecOn generalizing o with
  | nil => cases found
  | append_singleton earlier x inductionHypothesis =>
      rw [oldest_concat] at found
      cases chosen : oldest time earlier with
      | none =>
          rw [chosen] at found
          cases found
          rw [(oldest_eq_none_iff time earlier).mp chosen]
          exact ⟨[], [], rfl, by simp, by simp⟩
      | some least =>
          rw [chosen] at found
          dsimp only at found
          obtain ⟨before, after, split, first⟩ := inductionHypothesis chosen
          split at found
          · next younger =>
              cases found
              refine ⟨earlier, [], rfl, fun y member => ?_, by simp⟩
              rw [split] at member
              rcases List.mem_append.mp member with inBefore | inRest
              · exact younger.trans (first.before y inBefore)
              · rcases List.mem_cons.mp inRest with rfl | inAfter
                · exact younger
                · exact younger.trans_le (first.after y inAfter)
          · next older =>
              cases found
              refine ⟨before, after ++ [x], by simp [split], first.before, fun y member => ?_⟩
              rcases List.mem_append.mp member with inAfter | last
              · exact first.after y inAfter
              · exact List.mem_singleton.mp last ▸ not_lt.mp older

/-- Two places of a list: the same one, or one before the other. -/
theorem places {before before' after after' : List β} {o o' : β}
    (same : before ++ o :: after = before' ++ o' :: after') :
    (before = before' ∧ o = o' ∧ after = after') ∨ (o' ∈ after ∧ o ∈ before') ∨
      (o' ∈ before ∧ o ∈ after') := by
  rcases List.append_eq_append_iff.mp same with ⟨more, longer, rest⟩ | ⟨more, longer, rest⟩
  · cases more with
    | nil =>
        obtain ⟨here, later⟩ := List.cons.inj rest
        exact .inl ⟨by simpa using longer.symm, here, later⟩
    | cons y more =>
        obtain ⟨rfl, later⟩ := List.cons.inj rest
        exact .inr (.inl ⟨by simp [later], by simp [longer]⟩)
  · cases more with
    | nil =>
        obtain ⟨here, later⟩ := List.cons.inj rest
        exact .inl ⟨by simpa using longer, here.symm, later.symm⟩
    | cons y more =>
        obtain ⟨rfl, later⟩ := List.cons.inj rest
        exact .inr (.inr ⟨by simp [longer], by simp [later]⟩)

/-- There is only one first among the least. -/
theorem FirstLeast.unique {before before' after after' : List β} {o o' : β}
    (first : FirstLeast time before o after) (first' : FirstLeast time before' o' after')
    (same : before ++ o :: after = before' ++ o' :: after') :
    before = before' ∧ o = o' ∧ after = after' := by
  rcases places same with equal | ⟨later, earlier⟩ | ⟨earlier, later⟩
  · exact equal
  · exact absurd (first.after o' later) (not_le.mpr (first'.before o earlier))
  · exact absurd (first'.after o later) (not_le.mpr (first.before o' earlier))

/-! ## Writing -/

/-- One write into a row of at most `n` slots. -/
inductive Written (n : Nat) : List β → β → List β → Prop
  | room {slots : List β} (x : β) (some_ : slots.length < n) : Written n slots x (slots ++ [x])
  | full {before after : List β} {o : β} (x : β) (full : n ≤ (before ++ o :: after).length)
      (first : FirstLeast time before o after) :
      Written n (before ++ o :: after) x (before ++ x :: after)

/-- What is in the slots after writes one after the other. -/
inductive Filled (n : Nat) : List β → List β → Prop
  | start : Filled n [] []
  | write {xs slots slots' : List β} {x : β} (earlier : Filled n xs slots)
      (last : Written time n slots x slots') : Filled n (xs ++ [x]) slots'

/-- The oldest of the last `n` values before write `t` is due: it is older than those written
since the row was last gone round, and not younger than the rest. -/
def Due (n t : Nat) : List β → Prop
  | [] => True
  | v :: others =>
      (∀ y ∈ others.take (n - 1 - t % n), time v ≤ time y) ∧
        ∀ y ∈ others.drop (n - 1 - t % n), time v < time y

instance decidableDue (n t : Nat) : ∀ window : List β, Decidable (Due time n t window)
  | [] => isTrue trivial
  | v :: others =>
      inferInstanceAs (Decidable ((∀ y ∈ others.take (n - 1 - t % n), time v ≤ time y) ∧
        ∀ y ∈ others.drop (n - 1 - t % n), time v < time y))

/-- At every write into the full row the oldest value is due. -/
def InTurn (n : Nat) (xs : List β) : Prop :=
  ∀ t < xs.length, n ≤ t → Due time n t ((xs.take t).drop (t - n))

instance decidableInTurn (n : Nat) (xs : List β) : Decidable (InTurn time n xs) :=
  inferInstanceAs (Decidable (∀ t < xs.length, n ≤ t → Due time n t ((xs.take t).drop (t - n))))

/-- A row that is used first in, first out: still being filled, or gone round up to the place
where the values of the current lap end and those of the previous one go on. -/
inductive Laps (n : Nat) : List β → List β → Prop
  | first {xs : List β} (few : xs.length < n) : Laps n xs xs
  | later (older current rest : List β) (done : List β) (lap : n ∣ older.length)
      (previous : (done ++ rest).length = n) (place : done.length = current.length)
      (open_ : rest ≠ []) : Laps n (older ++ (done ++ rest) ++ current) (current ++ rest)

variable {time}

/-- The last `n` values of a row that has been gone round. -/
theorem window_of_laps {n : Nat} {older done rest current : List β}
    (previous : (done ++ rest).length = n) (place : done.length = current.length) :
    (older ++ (done ++ rest) ++ current).drop ((older ++ (done ++ rest) ++ current).length - n) =
      rest ++ current := by
  have length : (older ++ (done ++ rest) ++ current).length - n = (older ++ done).length := by
    simp only [List.length_append] at previous ⊢
    omega
  rw [length, show older ++ (done ++ rest) ++ current = (older ++ done) ++ (rest ++ current) by
    simp, List.drop_left]

/-- What is due, in a row that has been gone round. -/
theorem due_of_laps {n : Nat} {older done rest current : List β} {v : β}
    (lap : n ∣ older.length) (previous : (done ++ v :: rest).length = n)
    (place : done.length = current.length) :
    Due time n (older ++ (done ++ v :: rest) ++ current).length (v :: (rest ++ current)) ↔
      FirstLeast time current v rest := by
  have turns : (older ++ (done ++ v :: rest) ++ current).length % n = current.length := by
    obtain ⟨laps, length⟩ := lap
    rw [List.length_append, List.length_append, previous, length, ← Nat.mul_succ,
      Nat.mul_add_mod]
    refine Nat.mod_eq_of_lt ?_
    simp only [List.length_append, List.length_cons] at previous
    omega
  have split : n - 1 - current.length = rest.length := by
    simp only [List.length_append, List.length_cons] at previous
    omega
  show (_ ∧ _) ↔ _
  rw [turns, split, List.take_left, List.drop_left]
  exact ⟨fun due => ⟨due.2, due.1⟩, fun first => ⟨first.after, first.before⟩⟩

theorem InTurn.of_prefix {n : Nat} {p xs : List β} (turn : InTurn time n xs) (part : p <+: xs) :
    InTurn time n p := by
  obtain ⟨more, rfl⟩ := part
  intro t inside full
  have due := turn t (by simp; omega) full
  rwa [List.take_append_of_le_length (Nat.le_of_lt inside)] at due

theorem InTurn.concat_iff {n : Nat} {xs : List β} {x : β} :
    InTurn time n (xs ++ [x]) ↔ InTurn time n xs ∧
      (n ≤ xs.length → Due time n xs.length (xs.drop (xs.length - n))) := by
  constructor
  · intro turn
    refine ⟨turn.of_prefix (List.prefix_append xs [x]), fun full => ?_⟩
    have due := turn xs.length (by simp) full
    rwa [List.take_left] at due
  · rintro ⟨turn, last⟩ t inside full
    rw [List.length_append, List.length_singleton] at inside
    rcases Nat.lt_succ_iff_lt_or_eq.mp inside with earlier | rfl
    · rw [List.take_append_of_le_length (Nat.le_of_lt earlier)]
      exact turn t earlier full
    · rw [List.take_left]
      exact last full

/-- The row goes on round when the value that has been there longest is replaced. -/
theorem Laps.write {n : Nat} {older done rest current : List β} {v x : β} (lap : n ∣ older.length)
    (previous : (done ++ v :: rest).length = n) (place : done.length = current.length) :
    Laps n (older ++ (done ++ v :: rest) ++ current ++ [x]) (current ++ x :: rest) := by
  cases rest with
  | nil =>
      have closed : n ∣ (older ++ (done ++ [v])).length := by
        rw [List.length_append, previous]
        exact Nat.dvd_add lap (Nat.dvd_refl n)
      have next := Laps.later (older ++ (done ++ [v])) [] (current ++ [x]) [] closed
        (by simp only [List.length_append, List.length_cons, List.length_nil] at previous ⊢; omega)
        rfl (by simp)
      simpa using next
  | cons w rest =>
      have next := Laps.later older (current ++ [x]) (w :: rest) (done ++ [v]) lap
        (by simp at previous ⊢; omega) (by simp [place]) (List.cons_ne_nil _ _)
      simpa using next

/-- One write of a value in turn. -/
theorem laps_written {n : Nat} {xs slots slots' : List β} {x : β} (laps : Laps n xs slots)
    (written : Written time n slots x slots')
    (due : n ≤ xs.length → Due time n xs.length (xs.drop (xs.length - n))) :
    Laps n (xs ++ [x]) slots' := by
  cases laps with
  | first few =>
      cases written with
      | room _ _ =>
          by_cases more : (xs ++ [x]).length < n
          · exact .first more
          · have whole : (([] : List β) ++ (xs ++ [x])).length = n := by
              simp at more ⊢
              omega
            have gone := Laps.later [] [] (xs ++ [x]) [] (Nat.dvd_zero n) whole rfl (by simp)
            simpa using gone
      | full _ full first => omega
  | later older current rest done lap previous place open_ =>
      obtain ⟨v, rest, rfl⟩ := List.exists_cons_of_ne_nil open_
      have turn := due (by simp at previous ⊢; omega)
      rw [window_of_laps previous place] at turn
      have first := (due_of_laps lap previous place).mp turn
      generalize same : current ++ v :: rest = slots at written
      cases written with
      | room _ few =>
          rw [← same] at few
          simp only [List.length_append, List.length_cons] at previous few
          omega
      | full _ full first' =>
          obtain ⟨rfl, rfl, rfl⟩ := first.unique time first' same
          exact Laps.write lap previous place

/-- **Writes in turn go round the row.** -/
theorem filled_inTurn {n : Nat} (some_ : 0 < n) {xs slots : List β}
    (filled : Filled time n xs slots) (turn : InTurn time n xs) : Laps n xs slots := by
  induction filled with
  | start => exact .first some_
  | write _ last inductionHypothesis =>
      obtain ⟨earlier, due⟩ := InTurn.concat_iff.mp turn
      exact laps_written (inductionHypothesis earlier) last due

/-- A row that has been gone round holds the last `n` values. -/
theorem Laps.perm {n : Nat} {xs slots : List β} (laps : Laps n xs slots) (many : n ≤ xs.length) :
    slots.Perm (xs.drop (xs.length - n)) := by
  cases laps with
  | first few => omega
  | later older current rest done lap previous place open_ =>
      rw [window_of_laps previous place]
      exact List.perm_append_comm

/-- The last write of several. -/
theorem Filled.last {n : Nat} {xs slots' : List β} {x : β}
    (filled : Filled time n (xs ++ [x]) slots') :
    ∃ slots, Filled time n xs slots ∧ Written time n slots x slots' := by
  generalize all : xs ++ [x] = written at filled
  cases filled with
  | start => simp at all
  | @write earlier slots _ y before last =>
      obtain ⟨rfl, rfl⟩ := List.concat_inj.mp (by simpa using all)
      exact ⟨slots, before, last⟩

/-! ## First in, first out -/

/-- What is replaced out of turn leaves the value that was due. -/
theorem due_of_replaced {value : β → ω} {n : Nat} {xs slots slots' : List β} {x : β}
    (laps : Laps n xs slots) (written : Written time n slots x slots') (full : n ≤ xs.length)
    (distinct : ((xs ++ [x]).map value).Nodup)
    (last : ((slots'.map value).Perm
      (((xs ++ [x]).drop ((xs ++ [x]).length - n)).map value))) :
    Due time n xs.length (xs.drop (xs.length - n)) := by
  cases laps with
  | first few => omega
  | later older current rest done lap previous place open_ =>
      obtain ⟨v, rest, rfl⟩ := List.exists_cons_of_ne_nil open_
      rw [window_of_laps previous place]
      refine (due_of_laps lap previous place).mpr ?_
      have gone : value v ∉ slots'.map value := by
        have later : (older ++ (done ++ v :: rest) ++ current ++ [x]).drop
            ((older ++ (done ++ v :: rest) ++ current ++ [x]).length - n) =
              rest ++ current ++ [x] := by
          have length : (older ++ (done ++ v :: rest) ++ current ++ [x]).length - n =
              (older ++ done ++ [v]).length := by
            simp only [List.length_append, List.length_cons, List.length_nil] at previous ⊢
            omega
          rw [length, show older ++ (done ++ v :: rest) ++ current ++ [x] =
            (older ++ done ++ [v]) ++ (rest ++ current ++ [x]) by simp, List.drop_left]
        rw [last.mem_iff, later]
        have apart : (((older ++ done) ++ v :: (rest ++ current ++ [x])).map value).Nodup := by
          rw [show (older ++ done) ++ v :: (rest ++ current ++ [x]) =
            older ++ (done ++ v :: rest) ++ current ++ [x] by simp]
          exact distinct
        rw [List.map_append, List.map_cons] at apart
        exact (List.nodup_cons.mp (List.nodup_append.mp apart).2.1).1
      generalize same : current ++ v :: rest = slots at written
      cases written with
      | room _ few =>
          rw [← same] at few
          simp only [List.length_append, List.length_cons] at previous few
          omega
      | @full before after o _ _ first =>
          rcases places same.symm with ⟨rfl, rfl, rfl⟩ | ⟨inAfter, -⟩ | ⟨inBefore, -⟩
          · exact first
          · exact absurd (List.mem_map_of_mem (List.mem_append_right _
              (List.mem_cons_of_mem _ inAfter))) gone
          · exact absurd (List.mem_map_of_mem (List.mem_append_left _ inBefore)) gone

/-- **Only writes in turn use the slots first in, first out** where all values differ: the
values after any more than `n` of the writes are then those of the last `n`. -/
theorem inTurn_of_fifo (value : β → ω) {n : Nat} (some_ : 0 < n) {xs : List β}
    (rows : Nat → List β) (distinct : (xs.map value).Nodup)
    (filled : ∀ k ≤ xs.length, Filled time n (xs.take k) (rows k))
    (fifo : ∀ k ≤ xs.length, n < k →
      ((rows k).map value).Perm (((xs.take k).drop (k - n)).map value)) :
    InTurn time n xs := by
  induction xs using List.reverseRecOn with
  | nil => exact fun t inside => absurd inside (Nat.not_lt_zero t)
  | append_singleton xs x inductionHypothesis =>
      have length : (xs ++ [x]).length = xs.length + 1 := by simp
      have prefix_ : ∀ k ≤ xs.length, (xs ++ [x]).take k = xs.take k := fun k inside =>
        List.take_append_of_le_length inside
      have earlier : InTurn time n xs := by
        rw [List.map_append] at distinct
        refine inductionHypothesis (List.nodup_append.mp distinct).1 (fun k inside => ?_)
          fun k inside many => ?_
        · rw [← prefix_ k inside]
          exact filled k (by omega)
        · rw [← prefix_ k inside]
          exact fifo k (by omega) many
      refine InTurn.concat_iff.mpr ⟨earlier, fun full => ?_⟩
      have last := filled (xs.length + 1) (by omega)
      have perm := fifo (xs.length + 1) (by omega) (by omega)
      rw [← length, List.take_length] at last perm
      obtain ⟨slots, before, written⟩ := last.last
      exact due_of_replaced (filled_inTurn some_ before earlier) written full distinct perm

end Opencodepp.Library.Ring
