import Opencodepp.Library.Admission
import Opencodepp.Library.Pairing

/-!
# Questions and answers in a part of a sequence

A sequence is `Linked` when every question has an answer after it and every answer a question
before it.  A part of the sequence need not be: it is exactly when no item in it has lost all its
partners (`linked_taken_iff`).  It is when the items under one key are taken or passed over
together (`Linked.taken`), and only then where every key is asked for once and answered once
(`together_of_linked`).
-/

set_option autoImplicit false

namespace Opencodepp.Library

namespace Pairing

variable {α κ : Type} (p : Protocol α κ)

/-- A key was answered. -/
def Answered (k : κ) (items : List α) : Prop := ∃ a ∈ items, p.answers a = some k

/-- Every question has an answer after it, and every answer a question before it. -/
structure Linked (items : List α) : Prop where
  answered : ∀ before a after k, items = before ++ a :: after → p.asks a = some k →
    Answered p k after
  asked : ∀ before a after k, items = before ++ a :: after → p.answers a = some k →
    Asked p k before

variable {p}

/-- A paired sequence is linked. -/
theorem Paired.linked [DecidableEq κ] {items : List α} (paired : Paired p items) :
    Linked p items where
  answered before a after k split asks := by
    have once := paired.1 before a after k split asks
    unfold answersTo at once
    have some_ : 0 < after.countP fun b => p.answers b = some k := by omega
    obtain ⟨b, member, answers⟩ := List.countP_pos_iff.mp some_
    exact ⟨b, member, of_decide_eq_true answers⟩
  asked := paired.2

/-! ## Items that do neither -/

theorem asked_cons_inert {x : α} (asks : p.asks x = none) (k : κ) (items : List α) :
    Asked p k (x :: items) ↔ Asked p k items := by
  simp [Asked, asks]

theorem linked_cons_inert {x : α} (asks : p.asks x = none) (answers : p.answers x = none)
    (items : List α) : Linked p (x :: items) ↔ Linked p items := by
  constructor
  · intro linked
    exact
      { answered := fun before a after k split => linked.answered (x :: before) a after k
          (congrArg (x :: ·) split)
        asked := fun before a after k split answersA => (asked_cons_inert asks k before).mp
          (linked.asked (x :: before) a after k (congrArg (x :: ·) split) answersA) }
  · intro linked
    refine ⟨fun before a after k split asksA => ?_, fun before a after k split answersA => ?_⟩
    · rcases List.cons_eq_append_iff.mp split with ⟨rfl, same⟩ | ⟨before', rfl, split'⟩
      · cases same
        rw [asks] at asksA
        cases asksA
      · exact linked.answered before' a after k split' asksA
    · rcases List.cons_eq_append_iff.mp split with ⟨rfl, same⟩ | ⟨before', rfl, split'⟩
      · cases same
        rw [answers] at answersA
        cases answersA
      · exact (asked_cons_inert asks k before').mpr
          (linked.asked before' a after k split' answersA)

theorem answered_append_inert {x : α} (answers : p.answers x = none) (k : κ) (items : List α) :
    Answered p k (items ++ [x]) ↔ Answered p k items := by
  simp [Answered, or_and_right, exists_or, answers]

theorem linked_append_inert {x : α} (asks : p.asks x = none) (answers : p.answers x = none)
    (items : List α) : Linked p (items ++ [x]) ↔ Linked p items := by
  constructor
  · intro linked
    refine ⟨fun before a after k split asksA => ?_, fun before a after k split answersA => ?_⟩
    · have whole : items ++ [x] = before ++ a :: (after ++ [x]) := by simp [split]
      exact (answered_append_inert answers k after).mp
        (linked.answered before a _ k whole asksA)
    · have whole : items ++ [x] = before ++ a :: (after ++ [x]) := by simp [split]
      exact linked.asked before a _ k whole answersA
  · intro linked
    refine ⟨fun before a after k split asksA => ?_, fun before a after k split answersA => ?_⟩
    · rcases split_concat split with ⟨rfl, rfl, rfl⟩ | ⟨rest, rfl, inside⟩
      · rw [asks] at asksA
        cases asksA
      · exact (answered_append_inert answers k rest).mpr
          (linked.answered before a rest k inside asksA)
    · rcases split_concat split with ⟨rfl, rfl, rfl⟩ | ⟨rest, rfl, inside⟩
      · rw [answers] at answersA
        cases answersA
      · exact linked.asked before a rest k inside answersA

/-! ## A choice from a sequence -/

/-- No item that is taken has lost all its partners: neither are all answers after a question
passed over, nor all questions before an answer. -/
structure Unsevered (p : Protocol α κ) (decided : List (α × Bool)) : Prop where
  question : ∀ before a after k, decided = before ++ (a, true) :: after → p.asks a = some k →
    ¬∀ d ∈ after, p.answers d.1 = some k → d.2 = false
  answer : ∀ before a after k, decided = before ++ (a, true) :: after → p.answers a = some k →
    ¬∀ d ∈ before, p.asks d.1 = some k → d.2 = false

theorem mem_taken {a : α} {decided : List (α × Bool)} :
    a ∈ Admission.taken decided ↔ (a, true) ∈ decided := by
  unfold Admission.taken
  simp

/-- An item that is taken has its place in the line. -/
theorem split_taken {decided : List (α × Bool)} : ∀ {before after : List α} {a : α},
    Admission.taken decided = before ++ a :: after →
      ∃ earlier later, decided = earlier ++ (a, true) :: later ∧
        Admission.taken earlier = before ∧ Admission.taken later = after := by
  induction decided with
  | nil =>
      intro before after a split
      exact absurd split.symm (by simp [Admission.taken])
  | cons d rest inductionHypothesis =>
      intro before after a split
      obtain ⟨b, kept⟩ := d
      cases kept with
      | false =>
          obtain ⟨earlier, later, rfl, front, back⟩ := inductionHypothesis split
          exact ⟨(b, false) :: earlier, later, rfl, front, back⟩
      | true =>
          rw [Admission.taken_cons_true] at split
          rcases List.cons_eq_append_iff.mp split with ⟨rfl, same⟩ | ⟨before', rfl, split'⟩
          · cases same
            exact ⟨[], rest, rfl, rfl, rfl⟩
          · obtain ⟨earlier, later, rfl, front, back⟩ := inductionHypothesis split'
            refine ⟨(b, true) :: earlier, later, rfl, ?_, back⟩
            rw [Admission.taken_cons_true, front]

theorem taken_append (earlier later : List (α × Bool)) :
    Admission.taken (earlier ++ later) = Admission.taken earlier ++ Admission.taken later := by
  simp [Admission.taken]

/-- Something is taken unless all of its kind is passed over. -/
theorem exists_taken_iff (P : α → Prop) (decided : List (α × Bool)) :
    (∃ a ∈ Admission.taken decided, P a) ↔ ¬∀ d ∈ decided, P d.1 → d.2 = false := by
  constructor
  · rintro ⟨a, member, holds⟩ lost
    cases lost (a, true) (mem_taken.mp member) holds
  · intro some_
    push Not at some_
    obtain ⟨⟨a, kept⟩, member, holds, taken⟩ := some_
    cases kept with
    | false => exact absurd rfl taken
    | true => exact ⟨a, mem_taken.mpr member, holds⟩

/-- **What is taken is linked** exactly when nothing in it has lost all its partners. -/
theorem linked_taken_iff (decided : List (α × Bool)) :
    Linked p (Admission.taken decided) ↔ Unsevered p decided := by
  constructor
  · intro linked
    refine ⟨fun before a after k split asks => ?_, fun before a after k split answers => ?_⟩
    · refine (exists_taken_iff _ after).mp
        (linked.answered (Admission.taken before) a _ k ?_ asks)
      rw [split, taken_append, Admission.taken_cons_true]
    · refine (exists_taken_iff _ before).mp
        (linked.asked _ a (Admission.taken after) k ?_ answers)
      rw [split, taken_append, Admission.taken_cons_true]
  · intro unsevered
    refine ⟨fun before a after k split asks => ?_, fun before a after k split answers => ?_⟩
    · obtain ⟨earlier, later, same, -, rfl⟩ := split_taken split
      exact (exists_taken_iff _ later).mpr (unsevered.question earlier a later k same asks)
    · obtain ⟨earlier, later, same, rfl, -⟩ := split_taken split
      exact (exists_taken_iff _ earlier).mpr (unsevered.answer earlier a later k same answers)

/-! ## Keys that are kept together -/

/-- An item asks or answers under a key. -/
def Mentions (p : Protocol α κ) (k : κ) (a : α) : Prop :=
  p.asks a = some k ∨ p.answers a = some k

/-- Items under one key are decided on alike. -/
def Together (p : Protocol α κ) (decided : List (α × Bool)) : Prop :=
  ∀ k, ∀ d ∈ decided, ∀ e ∈ decided, Mentions p k d.1 → Mentions p k e.1 → d.2 = e.2

/-- **What is taken is linked** where keys are kept together. -/
theorem Linked.taken {decided : List (α × Bool)} (linked : Linked p (decided.map (·.1)))
    (together : Together p decided) : Linked p (Admission.taken decided) := by
  refine (linked_taken_iff decided).mpr
    ⟨fun before a after k split asks lost => ?_, fun before a after k split answers lost => ?_⟩
  · have whole : decided.map (·.1) = before.map (·.1) ++ a :: after.map (·.1) := by simp [split]
    obtain ⟨_, member, answers⟩ := linked.answered _ a _ k whole asks
    obtain ⟨d, there, rfl⟩ := List.mem_map.mp member
    have kept := together k (a, true) (by simp [split]) d (by simp [split, there]) (.inl asks)
      (.inr answers)
    cases kept.trans (lost d there answers)
  · have whole : decided.map (·.1) = before.map (·.1) ++ a :: after.map (·.1) := by simp [split]
    obtain ⟨_, member, asks⟩ := linked.asked _ a _ k whole answers
    obtain ⟨d, there, rfl⟩ := List.mem_map.mp member
    have kept := together k (a, true) (by simp [split]) d (by simp [split, there]) (.inr answers)
      (.inl asks)
    cases kept.trans (lost d there asks)

/-- No key is asked for again. -/
def AskedOnce (p : Protocol α κ) (items : List α) : Prop :=
  ∀ before a after k, items = before ++ a :: after → p.asks a = some k → ¬Asked p k after

/-- Two decisions on a question under one key are the same one. -/
theorem eq_of_asks {decided : List (α × Bool)} (once : AskedOnce p (decided.map (·.1)))
    {d e : α × Bool} {k : κ} (here : d ∈ decided) (there : e ∈ decided)
    (asks : p.asks d.1 = some k) (asks' : p.asks e.1 = some k) : d = e := by
  obtain ⟨before, after, rfl⟩ := List.append_of_mem here
  rcases List.mem_append.mp there with early | late
  · obtain ⟨front, behind, rfl⟩ := List.append_of_mem early
    refine absurd ⟨d.1, ?_, asks⟩ (once (front.map (·.1)) e.1
      ((behind ++ d :: after).map (·.1)) k (by simp) asks')
    simp
  · rcases List.mem_cons.mp late with same | later
    · exact same.symm
    · exact absurd ⟨e.1, List.mem_map_of_mem later, asks'⟩
        (once (before.map (·.1)) d.1 (after.map (·.1)) k (by simp) asks)

section Exact

variable [DecidableEq κ] {decided : List (α × Bool)} (paired : Paired p (decided.map (·.1)))
  (once : AskedOnce p (decided.map (·.1)))

include paired once

/-- An answer comes behind its question, and is the only one there. -/
theorem behind_question {q e : α × Bool} {k : κ} {before after : List (α × Bool)}
    (split : decided = before ++ q :: after) (there : e ∈ decided) (asks : p.asks q.1 = some k)
    (answers : p.answers e.1 = some k) :
    e ∈ after ∧ ∀ d ∈ after, p.answers d.1 = some k → d = e := by
  have whole : decided.map (·.1) = before.map (·.1) ++ q.1 :: after.map (·.1) := by simp [split]
  have single := paired.1 _ q.1 _ k whole asks
  have late : e ∈ after := by
    rw [split] at there
    rcases List.mem_append.mp there with early | late
    · -- in front it would have another question before it
      obtain ⟨front, behind, rfl⟩ := List.append_of_mem early
      obtain ⟨_, member, asks'⟩ := paired.2 (front.map (·.1)) e.1
        ((behind ++ q :: after).map (·.1)) k (by simp [split]) answers
      obtain ⟨d, earlier, rfl⟩ := List.mem_map.mp member
      have same := eq_of_asks once (by simp [split, earlier]) (by simp [split]) asks' asks
      obtain ⟨front', behind', rfl⟩ := List.append_of_mem earlier
      refine absurd ⟨q.1, ?_, asks⟩ (once (front'.map (·.1)) d.1
        ((behind' ++ e :: behind ++ q :: after).map (·.1)) k (by simp [split]) asks')
      simp
    · rcases List.mem_cons.mp late with rfl | later
      · rw [p.apart _ _ asks] at answers
        cases answers
      · exact later
  refine ⟨late, fun d member answers' => ?_⟩
  obtain ⟨front, behind, rfl⟩ := List.append_of_mem late
  unfold answersTo at single
  simp only [List.map_append, List.map_cons, List.countP_append, List.countP_cons, answers,
    decide_true, if_true] at single
  rcases List.mem_append.mp member with early | later
  · have some_ : 0 < (front.map (·.1)).countP fun b => p.answers b = some k :=
      List.countP_pos_iff.mpr ⟨d.1, List.mem_map_of_mem early, decide_eq_true answers'⟩
    omega
  · rcases List.mem_cons.mp later with same | later
    · exact same
    · have some_ : 0 < (behind.map (·.1)).countP fun b => p.answers b = some k :=
        List.countP_pos_iff.mpr ⟨d.1, List.mem_map_of_mem later, decide_eq_true answers'⟩
      omega

/-- A question is decided on as its answer is. -/
theorem decided_alike (unsevered : Unsevered p decided) {q e : α × Bool} {k : κ}
    (here : q ∈ decided) (there : e ∈ decided) (asks : p.asks q.1 = some k)
    (answers : p.answers e.1 = some k) : q.2 = e.2 := by
  obtain ⟨before, after, split⟩ := List.append_of_mem here
  obtain ⟨late, only⟩ := behind_question paired once split there asks answers
  obtain ⟨question, kept⟩ := q
  cases kept with
  | true =>
      by_contra lost
      refine unsevered.question before question after k split asks fun d member answers' => ?_
      rw [only d member answers']
      exact (Bool.eq_false_iff.mpr fun taken => lost taken.symm)
  | false =>
      by_contra lost
      obtain ⟨front, behind, split'⟩ := List.append_of_mem there
      obtain ⟨answer, taken⟩ := e
      cases taken with
      | false => exact lost rfl
      | true =>
          refine unsevered.answer front answer behind k split' answers fun d member asks' => ?_
          rw [eq_of_asks once (by rw [split']; simp [member]) here asks' asks]

/-- **Keys are kept together** by every linked choice, where each is asked for once and answered
once. -/
theorem together_of_linked (linked : Linked p (Admission.taken decided)) : Together p decided := by
  have unsevered := (linked_taken_iff decided).mp linked
  have question {e : α × Bool} {k : κ} (there : e ∈ decided) (answers : p.answers e.1 = some k) :
      ∃ q ∈ decided, p.asks q.1 = some k := by
    obtain ⟨front, behind, split⟩ := List.append_of_mem there
    obtain ⟨_, member, asks⟩ := paired.2 (front.map (·.1)) e.1 (behind.map (·.1)) k
      (by simp [split]) answers
    obtain ⟨q, earlier, rfl⟩ := List.mem_map.mp member
    exact ⟨q, by simp [split, earlier], asks⟩
  rintro k d here e there (asks | answers) (asks' | answers')
  · rw [eq_of_asks once here there asks asks']
  · exact decided_alike paired once unsevered here there asks answers'
  · exact (decided_alike paired once unsevered there here asks' answers).symm
  · obtain ⟨q, asking, asks⟩ := question here answers
    exact (decided_alike paired once unsevered asking here asks answers).symm.trans
      (decided_alike paired once unsevered asking there asks answers')

end Exact

end Pairing

end Opencodepp.Library
