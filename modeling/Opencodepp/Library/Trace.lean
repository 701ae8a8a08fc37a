import Mathlib.Data.List.Basic

/-!
# Traces

A trace lists what happened, newest first, so that the entries after a given one in
the list are its past.  `Always` says that every entry stands in a given relation to
its past, which is how "B only after A" is stated; `Extends` says that one trace
continues another by entries of a given class.

The rules connect the two: a continuation by entries that fulfil the relation keeps
`Always`, and what only other entries can change (the latest entry of a kind, the number
of entries of a kind) is the same after it.
-/

set_option autoImplicit false

namespace Opencodepp.Library

namespace Trace

variable {α β : Type}

/-- Every entry stands in the relation to its past. -/
def Always (Φ : List α → α → Prop) : List α → Prop
  | [] => True
  | e :: past => Φ past e ∧ Always Φ past

@[simp] theorem always_nil (Φ : List α → α → Prop) : Always Φ [] := trivial

@[simp] theorem always_cons (Φ : List α → α → Prop) (e : α) (past : List α) :
    Always Φ (e :: past) ↔ Φ past e ∧ Always Φ past := Iff.rfl

/-- The relation holds at every place of the trace. -/
theorem Always.at {Φ : List α → α → Prop} :
    ∀ {later : List α} {e : α} {past : List α}, Always Φ (later ++ e :: past) → Φ past e := by
  intro later
  induction later with
  | nil =>
      intro e past always
      exact always.1
  | cons newest rest inductionHypothesis =>
      intro e past always
      exact inductionHypothesis always.2

/-- `now` continues `past` by entries of the class `A`. -/
def Extends (A : α → Prop) (past now : List α) : Prop :=
  ∃ new, now = new ++ past ∧ ∀ e ∈ new, A e

namespace Extends

variable {A B : α → Prop} {past mid now : List α}

theorem refl (A : α → Prop) (past : List α) : Extends A past past :=
  ⟨[], rfl, fun _ member => absurd member List.not_mem_nil⟩

theorem trans (first : Extends A past mid) (second : Extends A mid now) :
    Extends A past now := by
  obtain ⟨earlier, rfl, allEarlier⟩ := first
  obtain ⟨later, rfl, allLater⟩ := second
  refine ⟨later ++ earlier, (List.append_assoc ..).symm, ?_⟩
  intro e member
  rcases List.mem_append.mp member with inLater | inEarlier
  · exact allLater e inLater
  · exact allEarlier e inEarlier

theorem cons {e : α} (class_ : A e) (ext : Extends A past now) : Extends A past (e :: now) := by
  obtain ⟨new, rfl, all⟩ := ext
  exact ⟨e :: new, rfl, List.forall_mem_cons.mpr ⟨class_, all⟩⟩

theorem single {e : α} (class_ : A e) (past : List α) : Extends A past (e :: past) :=
  cons class_ (refl A past)

theorem mono (weaker : ∀ e, A e → B e) (ext : Extends A past now) : Extends B past now := by
  obtain ⟨new, split, all⟩ := ext
  exact ⟨new, split, fun e member => weaker e (all e member)⟩

theorem mem_or (ext : Extends A past now) {e : α} (member : e ∈ now) : e ∈ past ∨ A e := by
  obtain ⟨new, rfl, all⟩ := ext
  rcases List.mem_append.mp member with inNew | inPast
  · exact .inr (all e inNew)
  · exact .inl inPast

theorem mem (ext : Extends A past now) {e : α} (member : e ∈ past) : e ∈ now := by
  obtain ⟨new, rfl, all⟩ := ext
  exact List.mem_append_right new member

/-- The rule for `Always`: each new entry stands in the relation to whatever trace it
is put on top of. -/
theorem always {Φ : List α → α → Prop} (ext : Extends A past now) (start : Always Φ past)
    (step : ∀ mid e, Extends A past mid → A e → Φ mid e) : Always Φ now := by
  obtain ⟨new, rfl, all⟩ := ext
  induction new with
  | nil => exact start
  | cons e rest inductionHypothesis =>
      obtain ⟨head, tail⟩ := List.forall_mem_cons.mp all
      exact ⟨step _ e ⟨rest, rfl, tail⟩ head, inductionHypothesis tail⟩

/-- The latest entry of a kind is not changed by other entries. -/
theorem findSome (f : α → Option β) (ext : Extends A past now) (other : ∀ e, A e → f e = none) :
    now.findSome? f = past.findSome? f := by
  obtain ⟨new, rfl, all⟩ := ext
  rw [List.findSome?_append,
    List.findSome?_eq_none_iff.mpr fun e member => other e (all e member)]
  rfl

/-- The number of entries of a kind is not changed by other entries. -/
theorem countP (p : α → Bool) (ext : Extends A past now) (other : ∀ e, A e → p e = false) :
    now.countP p = past.countP p := by
  obtain ⟨new, rfl, all⟩ := ext
  have none_ : new.countP p = 0 :=
    List.countP_eq_zero.mpr fun e member => by simp [other e (all e member)]
  rw [List.countP_append, none_, Nat.zero_add]

end Extends

end Trace

end Opencodepp.Library
