import Mathlib.Data.List.Induction
import Mathlib.Data.List.Nodup
import Mathlib.Data.Set.Function
import Mathlib.Algebra.BigOperators.Group.List.Basic
import Mathlib.Algebra.GroupWithZero.Nat

/-!
# Collecting within a budget

Items are collected in the order of their keys until a budget is used up; the item that does not
fit any more is cut to what is left.  The keys come from a search: each has its turn, and at its
turn it is met with those of its neighbours that were not met before.  Nothing keeps a key from
its own turn, so that it can be collected twice.  `nodup_ration_reach_iff` says when it is not.
What is collected does not depend on the keys themselves: renamed keys that stay apart collect the
same items, in the same order.
-/

set_option autoImplicit false

namespace Opencodepp.Library

/-! ## The budget -/

section Ration

variable {κ σ : Type} (item : κ → Option σ) (size : σ → Nat) (cut : Nat → σ → σ)

/-- The items of keys, each cut to what is left of the budget; a key without one is passed by. -/
def ration : Nat → List κ → List (κ × σ)
  | _, [] => []
  | budget, k :: rest =>
      if budget = 0 then []
      else
        ((item k).map fun whole => (k, cut budget whole)).toList ++
          ration (budget - ((item k).map size).getD 0) rest

/-- The bytes that a key takes of a budget. -/
def cost (k : κ) : Nat := ((item k).map size).getD 0

/-- What keys take together. -/
def costs (keys : List κ) : Nat := (keys.map (cost item size)).sum

variable {item size cut}

@[simp] theorem ration_nil (budget : Nat) : ration item size cut budget [] = [] := rfl

@[simp] theorem ration_zero (keys : List κ) : ration item size cut 0 keys = [] := by
  cases keys with
  | nil => rfl
  | cons k rest => exact if_pos rfl

theorem ration_cons {budget : Nat} (left : budget ≠ 0) (k : κ) (rest : List κ) :
    ration item size cut budget (k :: rest) =
      ((item k).map fun whole => (k, cut budget whole)).toList ++
        ration item size cut (budget - cost item size k) rest :=
  if_neg left

@[simp] theorem costs_nil : costs item size [] = 0 := rfl

@[simp] theorem costs_cons (k : κ) (rest : List κ) :
    costs item size (k :: rest) = cost item size k + costs item size rest := by
  rw [costs, List.map_cons, List.sum_cons]
  rfl

theorem costs_append (first second : List κ) :
    costs item size (first ++ second) = costs item size first + costs item size second := by
  simp [costs]

/-- More keys are served from what the first ones leave. -/
theorem ration_append (first second : List κ) : ∀ budget : Nat,
    ration item size cut budget (first ++ second) =
      ration item size cut budget first ++
        ration item size cut (budget - costs item size first) second := by
  induction first with
  | nil => exact fun budget => rfl
  | cons k rest inductionHypothesis =>
      intro budget
      by_cases spent : budget = 0
      · simp [spent]
      · rw [List.cons_append, ration_cons spent, ration_cons spent, inductionHypothesis,
          List.append_assoc, Nat.sub_sub, costs_cons]

/-- What is collected is an item of a key, cut to some size. -/
theorem exists_of_mem_ration {entry : κ × σ} (keys : List κ) : ∀ {budget : Nat},
    entry ∈ ration item size cut budget keys →
      entry.1 ∈ keys ∧ ∃ whole left, item entry.1 = some whole ∧ entry.2 = cut left whole := by
  induction keys with
  | nil => exact fun member => absurd member List.not_mem_nil
  | cons k rest inductionHypothesis =>
      intro budget member
      by_cases spent : budget = 0
      · simp [spent] at member
      · rw [ration_cons spent, List.mem_append, Option.mem_toList, Option.map_eq_some_iff] at member
        obtain ⟨whole, found, rfl⟩ | later := member
        · exact ⟨List.mem_cons_self, whole, budget, found, rfl⟩
        · obtain ⟨inside, rest⟩ := inductionHypothesis later
          exact ⟨List.mem_cons_of_mem _ inside, rest⟩

/-- As long as the budget lasts, everything that has an item is collected. -/
theorem mem_ration_of_costs_lt {k : κ} (keys : List κ) : ∀ {budget : Nat},
    costs item size keys < budget → k ∈ keys → item k ≠ none →
      k ∈ (ration item size cut budget keys).map Prod.fst := by
  induction keys with
  | nil => exact fun _ member => absurd member List.not_mem_nil
  | cons first rest inductionHypothesis =>
      intro budget fits member has
      rw [costs_cons] at fits
      rw [ration_cons (by omega), List.map_append, List.mem_append]
      obtain rfl | later := List.mem_cons.mp member
      · obtain ⟨whole, found⟩ := Option.ne_none_iff_exists'.mp has
        exact .inl (by simp [found])
      · exact .inr (inductionHypothesis (by omega) later has)

/-- Of different keys nothing is collected twice. -/
theorem nodup_fst_ration (keys : List κ) : ∀ {budget : Nat}, keys.Nodup →
    ((ration item size cut budget keys).map Prod.fst).Nodup := by
  induction keys with
  | nil => exact fun _ => List.nodup_nil
  | cons first rest inductionHypothesis =>
      intro budget distinct
      obtain ⟨apart, distinct⟩ := List.nodup_cons.mp distinct
      by_cases spent : budget = 0
      · simp [spent]
      · rw [ration_cons spent, List.map_append]
        refine List.nodup_append.mpr ⟨?_, inductionHypothesis distinct, ?_⟩
        · cases item first <;> simp
        · rintro _ here _ there rfl
          obtain ⟨entry, member, same⟩ := List.mem_map.mp there
          obtain ⟨inside, -⟩ := exists_of_mem_ration rest member
          cases found : item first with
          | none => simp [found] at here
          | some whole =>
              simp only [found, Option.map_some, Option.toList_some, List.map_cons, List.map_nil,
                List.mem_singleton] at here
              rw [same, here] at inside
              exact apart inside

/-- The size of what is collected is that of all items, up to the budget. -/
theorem sum_ration (cuts : ∀ budget whole, size (cut budget whole) = min budget (size whole))
    (keys : List κ) : ∀ budget : Nat,
    ((ration item size cut budget keys).map fun entry => size entry.2).sum =
      min budget (costs item size keys) := by
  induction keys with
  | nil => exact fun budget => (Nat.min_zero budget).symm
  | cons k rest inductionHypothesis =>
      intro budget
      by_cases spent : budget = 0
      · simp [spent]
      · rw [ration_cons spent, List.map_append, List.sum_append, inductionHypothesis, costs_cons]
        cases found : item k with
        | none =>
            simp only [Option.map_none, Option.toList_none, List.map_nil, List.sum_nil, cost, found,
              Option.getD_none]
            omega
        | some whole =>
            simp only [Option.map_some, Option.toList_some, List.map_cons, List.map_nil,
              List.sum_cons, List.sum_nil, cost, found, Option.getD_some, cuts]
            omega

end Ration

/-! ## The search -/

section Reach

variable {κ : Type} [DecidableEq κ]

/-- Meet a key that was not met before. -/
def meet (met : List κ) (k : κ) : List κ := if k ∈ met then met else met ++ [k]

/-- The keys in the order they are met: each at its turn, and then its neighbours. -/
def reach (neighbours : κ → List κ) (turns : List κ) : List κ :=
  turns.foldl (fun met k => (neighbours k).foldl meet (met ++ [k])) []

/-- Meeting keys adds those that are new, each once. -/
theorem exists_foldl_meet (keys : List κ) : ∀ met : List κ,
    ∃ new, keys.foldl meet met = met ++ new ∧ new.Nodup ∧
      ∀ k, k ∈ new ↔ k ∈ keys ∧ k ∉ met := by
  induction keys with
  | nil => exact fun met => ⟨[], (List.append_nil met).symm, List.nodup_nil, by simp⟩
  | cons first rest inductionHypothesis =>
      intro met
      rw [List.foldl_cons, meet]
      by_cases old : first ∈ met
      · rw [if_pos old]
        obtain ⟨new, shape, once, members⟩ := inductionHypothesis met
        refine ⟨new, shape, once, fun k => (members k).trans ?_⟩
        grind
      · rw [if_neg old]
        obtain ⟨new, shape, once, members⟩ := inductionHypothesis (met ++ [first])
        refine ⟨first :: new, by rw [shape, List.append_assoc]; rfl, ?_, fun k => ?_⟩
        · refine List.nodup_cons.mpr ⟨fun again => ?_, once⟩
          simpa using ((members first).mp again).2
        · rw [List.mem_cons, members k]
          grind

variable {neighbours : κ → List κ}

theorem reach_concat (turns : List κ) (k : κ) :
    reach neighbours (turns ++ [k]) =
      (neighbours k).foldl meet (reach neighbours turns ++ [k]) := by
  rw [reach, List.foldl_append]
  rfl

/-- Met are the keys that had a turn and the neighbours of these. -/
theorem mem_reach {turns : List κ} {k : κ} :
    k ∈ reach neighbours turns ↔ k ∈ turns ∨ ∃ turn ∈ turns, k ∈ neighbours turn := by
  induction turns using List.reverseRecOn with
  | nil => simp [reach]
  | append_singleton turns last inductionHypothesis =>
      rw [reach_concat]
      obtain ⟨new, shape, -, members⟩ :=
        exists_foldl_meet (neighbours last) (reach neighbours turns ++ [last])
      rw [shape, List.mem_append, members, List.mem_append, inductionHypothesis]
      simp only [List.mem_append, List.mem_singleton]
      grind

end Reach

/-! ## Collecting twice -/

/-- What holds at every place of a longer list holds at every place before and at the last. -/
theorem forall_place_concat {κ : Type} {P : List κ → κ → Prop} (turns : List κ) (last : κ) :
    (∀ before k after, turns ++ [last] = before ++ k :: after → P before k) ↔
      (∀ before k after, turns = before ++ k :: after → P before k) ∧ P turns last := by
  constructor
  · refine fun all => ⟨fun before k after whole => ?_, all turns last [] rfl⟩
    exact all before k (after ++ [last]) (by rw [whole, List.append_assoc]; rfl)
  · rintro ⟨earlier, final⟩ before k after whole
    obtain rfl | ⟨front, other, rfl⟩ := List.eq_nil_or_concat after
    · obtain ⟨rfl, same⟩ := List.append_inj' whole rfl
      obtain rfl := List.singleton_inj.mp same
      exact final
    · refine earlier before k front ?_
      rw [List.concat_eq_append, ← List.cons_append, ← List.append_assoc] at whole
      exact (List.append_inj' whole rfl).1

section Collect

variable {κ σ : Type} [DecidableEq κ] {item : κ → Option σ} {size : σ → Nat} {cut : Nat → σ → σ}
  {neighbours : κ → List κ}

/-- **Nothing is collected twice exactly when a key that has an item and was met before has its
turn only after the budget is used up.** -/
theorem nodup_ration_reach_iff (budget : Nat) (turns : List κ) :
    ((ration item size cut budget (reach neighbours turns)).map Prod.fst).Nodup ↔
      ∀ before k after, turns = before ++ k :: after → item k ≠ none →
        k ∈ reach neighbours before → budget ≤ costs item size (reach neighbours before) := by
  induction turns using List.reverseRecOn with
  | nil => simp [reach]
  | append_singleton turns last inductionHypothesis =>
      obtain ⟨new, shape, once, members⟩ :=
        exists_foldl_meet (neighbours last) (reach neighbours turns ++ [last])
      have other : last ∉ new := fun again => by simpa using ((members last).mp again).2
      rw [forall_place_concat, ← inductionHypothesis, reach_concat, shape, List.append_assoc,
        List.singleton_append, ration_append, List.map_append]
      generalize reach neighbours turns = met at members ⊢
      by_cases spent : budget ≤ costs item size met
      · rw [Nat.sub_eq_zero_of_le spent, ration_zero, List.map_nil, List.append_nil]
        exact ⟨fun nodup => ⟨nodup, fun _ _ => spent⟩, And.left⟩
      · have left : budget - costs item size met ≠ 0 := by omega
        have added : ((ration item size cut (budget - costs item size met)
            (last :: new)).map Prod.fst).Nodup :=
          nodup_fst_ration _ (List.nodup_cons.mpr ⟨other, once⟩)
        rw [List.nodup_append]
        refine and_congr_right fun _ => ⟨fun ⟨_, apart⟩ has old => ?_, fun fresh => ⟨added, ?_⟩⟩
        · -- The key was collected before, and is again at its turn.
          have before : last ∈ (ration item size cut budget met).map Prod.fst :=
            mem_ration_of_costs_lt met (Nat.lt_of_not_le spent) old has
          obtain ⟨whole, found⟩ := Option.ne_none_iff_exists'.mp has
          refine absurd rfl (apart last before last ?_)
          rw [ration_cons left, found]
          exact List.mem_cons_self
        · rintro k here _ there rfl
          obtain ⟨entry, member, rfl⟩ := List.mem_map.mp here
          obtain ⟨again, atTurn, same⟩ := List.mem_map.mp there
          obtain ⟨old, -⟩ := exists_of_mem_ration met member
          obtain ⟨inside, whole, -, found, -⟩ := exists_of_mem_ration (last :: new) atTurn
          rw [same] at inside found
          obtain turn | neighbour := List.mem_cons.mp inside
          · rw [turn] at old found
            exact spent (fresh (by simp [found]) old)
          · exact ((members _).mp neighbour).2 (List.mem_append_left _ old)

end Collect

/-! ## Renamed keys -/

section Rename

variable {κ κ' σ : Type} {f : κ → κ'}

/-- What is collected of renamed keys is what was collected of the keys. -/
theorem ration_map {item : κ → Option σ} {item' : κ' → Option σ} {size : σ → Nat}
    {cut : Nat → σ → σ} (keys : List κ) (same : ∀ k ∈ keys, item' (f k) = item k) :
    ∀ budget : Nat, ration item' size cut budget (keys.map f) =
      (ration item size cut budget keys).map (Prod.map f id) := by
  induction keys with
  | nil => exact fun _ => rfl
  | cons k rest inductionHypothesis =>
      intro budget
      by_cases spent : budget = 0
      · simp [spent]
      · have later := inductionHypothesis fun k member => same k (List.mem_cons_of_mem _ member)
        rw [List.map_cons, ration_cons spent, ration_cons spent, later, List.map_append, cost, cost,
          same k List.mem_cons_self]
        cases item k <;> rfl

variable [DecidableEq κ] [DecidableEq κ'] {P : κ → Prop} (injective : Set.InjOn f {k | P k})

include injective

/-- Keys that are kept apart are met in the same order. -/
theorem foldl_meet_map {keys : List κ} (all : ∀ k ∈ keys, P k) : ∀ {met : List κ},
    (∀ k ∈ met, P k) → (keys.map f).foldl meet (met.map f) = (keys.foldl meet met).map f := by
  induction keys with
  | nil => exact fun _ => rfl
  | cons first rest inductionHypothesis =>
      intro met earlier
      have here : P first := all first List.mem_cons_self
      have known : f first ∈ met.map f ↔ first ∈ met := by
        refine ⟨fun member => ?_, List.mem_map_of_mem⟩
        obtain ⟨k, old, same⟩ := List.mem_map.mp member
        exact injective (earlier k old) here same ▸ old
      have step : meet (met.map f) (f first) = (meet met first).map f := by
        unfold meet
        by_cases old : first ∈ met
        · rw [if_pos old, if_pos (known.mpr old)]
        · rw [if_neg old, if_neg fun member => old (known.mp member), List.map_append]
          rfl
      rw [List.map_cons, List.foldl_cons, List.foldl_cons, step]
      refine inductionHypothesis (fun k member => all k (List.mem_cons_of_mem _ member)) ?_
      intro k member
      unfold meet at member
      split at member
      · exact earlier k member
      · obtain old | new := List.mem_append.mp member
        · exact earlier k old
        · exact List.mem_singleton.mp new ▸ here

/-- A renaming that keeps neighbours renames the search. -/
theorem reach_map {neighbours : κ → List κ} {neighbours' : κ' → List κ'} (turns : List κ)
    (all : ∀ k ∈ turns, P k) (near : ∀ k, P k → ∀ n ∈ neighbours k, P n)
    (same : ∀ k, P k → neighbours' (f k) = (neighbours k).map f) :
    reach neighbours' (turns.map f) = (reach neighbours turns).map f := by
  induction turns using List.reverseRecOn with
  | nil => rfl
  | append_singleton turns last inductionHypothesis =>
      have here : P last := all last (by simp)
      have before : ∀ k ∈ turns, P k := fun k member => all k (List.mem_append_left _ member)
      have met : ∀ k ∈ reach neighbours turns ++ [last], P k := by
        intro k member
        obtain early | final := List.mem_append.mp member
        · obtain turn | ⟨turn, at_, neighbour⟩ := mem_reach.mp early
          · exact before k turn
          · exact near turn (before turn at_) k neighbour
        · exact List.mem_singleton.mp final ▸ here
      have shape : (reach neighbours turns).map f ++ [f last] =
          (reach neighbours turns ++ [last]).map f := by simp
      rw [List.map_append, List.map_singleton, reach_concat, reach_concat,
        inductionHypothesis before, same last here, shape,
        foldl_meet_map injective (near last here) met]

end Rename

end Opencodepp.Library
