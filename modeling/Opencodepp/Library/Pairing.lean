import Mathlib.Data.List.Basic

/-!
# Questions and their answers in a sequence

Some items of a sequence ask under a key, some answer a key.  The sequence is `Paired` when
every question has exactly one answer after it and every answer a question before it.
`Pending asked` is the same with the keys `asked` still unanswered, and the rules for it
follow a sequence that grows at its end: by an item that does neither, by questions under
new keys, and by the answer of a pending key.
-/

set_option autoImplicit false

namespace Opencodepp.Library

namespace Pairing

variable {α κ : Type}

/-- What an item asks and answers.  No item does both. -/
structure Protocol (α κ : Type) where
  asks : α → Option κ
  answers : α → Option κ
  apart : ∀ a k, asks a = some k → answers a = none

variable (p : Protocol α κ)

/-- The number of answers to a key. -/
def answersTo [DecidableEq κ] (k : κ) (items : List α) : Nat := items.countP fun a => p.answers a = some k

/-- A key was asked for. -/
def Asked (k : κ) (items : List α) : Prop := ∃ a ∈ items, p.asks a = some k

instance [DecidableEq κ] (k : κ) (items : List α) : Decidable (Asked p k items) :=
  inferInstanceAs (Decidable (∃ a ∈ items, p.asks a = some k))

/-- Every question has exactly one later answer, unless it is pending, and every answer an
earlier question. -/
structure Pending [DecidableEq κ] (pending : List κ) (items : List α) : Prop where
  answered : ∀ before a after k, items = before ++ a :: after → p.asks a = some k →
    answersTo p k after = if k ∈ pending then 0 else 1
  asked : ∀ before a after k, items = before ++ a :: after → p.answers a = some k →
    Asked p k before
  known : ∀ k ∈ pending, Asked p k items

/-- Every question has exactly one later answer, and every answer an earlier question. -/
def Paired [DecidableEq κ] (items : List α) : Prop :=
  (∀ before a after k, items = before ++ a :: after → p.asks a = some k →
    answersTo p k after = 1) ∧
  (∀ before a after k, items = before ++ a :: after → p.answers a = some k → Asked p k before)

variable {p}

/-- The places of a sequence that was extended by one item. -/
theorem split_concat {items before after : List α} {a x : α}
    (split : items ++ [x] = before ++ a :: after) :
    (before = items ∧ a = x ∧ after = []) ∨
      ∃ rest, after = rest ++ [x] ∧ items = before ++ a :: rest := by
  rcases List.eq_nil_or_concat after with rfl | ⟨rest, last, rfl⟩
  · obtain ⟨same, last⟩ := List.append_inj' split rfl
    cases last
    exact .inl ⟨same.symm, rfl, rfl⟩
  · rw [List.concat_eq_append] at split ⊢
    rw [← List.cons_append, ← List.append_assoc] at split
    obtain ⟨same, last⟩ := List.append_inj' split rfl
    cases last
    exact .inr ⟨rest, rfl, same⟩

theorem Asked.append {k : κ} {items : List α} (asked : Asked p k items) (more : List α) :
    Asked p k (items ++ more) := by
  obtain ⟨a, member, asks⟩ := asked
  exact ⟨a, List.mem_append_left more member, asks⟩

variable [DecidableEq κ]

theorem Pending.paired {items : List α} (pending : Pending p [] items) : Paired p items := by
  refine ⟨fun before a after k split asks => ?_, pending.asked⟩
  simpa using pending.answered before a after k split asks

/-- A question of a paired sequence is answered. -/
theorem Paired.answersTo_ne_zero {items : List α} (paired : Paired p items) {a : α} {k : κ}
    (member : a ∈ items) (asks : p.asks a = some k) : answersTo p k items ≠ 0 := by
  obtain ⟨before, after, split⟩ := List.append_of_mem member
  have once := paired.1 before a after k split asks
  unfold answersTo at once ⊢
  rw [split, List.countP_append, List.countP_cons]
  omega

theorem pending_nil : Pending p [] [] where
  answered before a after k split _ := by simp at split
  asked before a after k split _ := by simp at split
  known k member := absurd member List.not_mem_nil

section Extend

variable {pending : List κ} {items : List α} {x : α}

/-- The answers of the extended sequence come after earlier questions when the new one
does. -/
theorem asked_concat (held : Pending p pending items)
    (new : ∀ k, p.answers x = some k → Asked p k items) :
    ∀ before a after k, items ++ [x] = before ++ a :: after → p.answers a = some k →
      Asked p k before := by
  intro before a after k split answers
  rcases split_concat split with ⟨rfl, rfl, rfl⟩ | ⟨rest, rfl, inside⟩
  · exact new k answers
  · exact held.asked before a rest k inside answers

theorem answersTo_concat (k : κ) (rest : List α) :
    answersTo p k (rest ++ [x]) = answersTo p k rest + if p.answers x = some k then 1 else 0 := by
  unfold answersTo
  rw [List.countP_append, List.countP_singleton]
  simp

/-- An item that neither asks nor answers. -/
theorem Pending.inert (held : Pending p pending items) (asks : p.asks x = none)
    (answers : p.answers x = none) : Pending p pending (items ++ [x]) where
  answered before a after k split asksA := by
    rcases split_concat split with ⟨rfl, rfl, rfl⟩ | ⟨rest, rfl, inside⟩
    · rw [asks] at asksA
      cases asksA
    · rw [answersTo_concat, if_neg (by simp [answers])]
      exact held.answered before a rest k inside asksA
  asked := asked_concat held fun k impossible => by
    rw [answers] at impossible
    cases impossible
  known k member := (held.known k member).append [x]

/-- A question under a new key. -/
theorem Pending.ask {key : κ} (held : Pending p pending items) (asks : p.asks x = some key)
    (fresh : ¬Asked p key items) : Pending p (pending ++ [key]) (items ++ [x]) where
  answered before a after k split asksA := by
    have silent := p.apart x key asks
    rcases split_concat split with ⟨rfl, rfl, rfl⟩ | ⟨rest, rfl, inside⟩
    · rw [asks] at asksA
      cases asksA
      simp [answersTo]
    · have other : k ≠ key := by
        rintro rfl
        exact fresh ⟨a, inside ▸ List.mem_append_right _ (List.mem_cons_self ..), asksA⟩
      rw [answersTo_concat, if_neg (by simp [silent]), Nat.add_zero,
        held.answered before a rest k inside asksA]
      simp [other]
  asked := asked_concat held fun k impossible => by
    rw [p.apart x key asks] at impossible
    cases impossible
  known k member := by
    rcases List.mem_append.mp member with old | new
    · exact (held.known k old).append [x]
    · rw [List.mem_singleton.mp new]
      exact ⟨x, by simp, asks⟩

/-- The answer of a pending key. -/
theorem Pending.answer {key : κ} {rest : List κ} (held : Pending p (key :: rest) items)
    (once : key ∉ rest) (answers : p.answers x = some key) :
    Pending p rest (items ++ [x]) where
  answered before a after k split asksA := by
    rcases split_concat split with ⟨rfl, rfl, rfl⟩ | ⟨tail, rfl, inside⟩
    · have silent := p.apart a k asksA
      rw [answers] at silent
      cases silent
    · have before_ := held.answered before a tail k inside asksA
      rw [answersTo_concat, answers]
      by_cases same : k = key
      · subst same
        rw [before_]
        simp [once]
      · rw [before_]
        simp [same, Ne.symm same]
  asked := asked_concat held fun k answersK => by
    rw [answers] at answersK
    cases answersK
    exact held.known key (List.mem_cons_self ..)
  known k member := (held.known k (List.mem_cons_of_mem _ member)).append [x]

end Extend

/-- Several questions under new and distinct keys. -/
theorem Pending.askAll {β : Type} (make : β → α) (key : β → κ)
    (asks : ∀ b, p.asks (make b) = some (key b)) :
    ∀ (questions : List β) (pending : List κ) (items : List α), Pending p pending items →
      (questions.map key).Nodup → (∀ b ∈ questions, ¬Asked p (key b) items) →
      Pending p (pending ++ questions.map key) (items ++ questions.map make) := by
  intro questions
  induction questions with
  | nil =>
      intro pending items held _ _
      simpa using held
  | cons b rest inductionHypothesis =>
      intro pending items held distinct fresh
      obtain ⟨notLater, distinctRest⟩ := List.nodup_cons.mp distinct
      have first := held.ask (asks b) (fresh b (List.mem_cons_self ..))
      have all := inductionHypothesis (pending ++ [key b]) (items ++ [make b]) first distinctRest ?_
      · simpa using all
      · rintro c member ⟨a, inItems, asksA⟩
        rcases List.mem_append.mp inItems with old | new
        · exact fresh c (List.mem_cons_of_mem _ member) ⟨a, old, asksA⟩
        · rw [List.mem_singleton.mp new, asks b] at asksA
          have same : key b = key c := Option.some.inj asksA
          exact notLater (List.mem_map.mpr ⟨c, member, same.symm⟩)

end Pairing

end Opencodepp.Library
