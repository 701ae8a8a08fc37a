import Mathlib.Order.Defs.Unbundled
import Mathlib.Tactic.ByContra

/-!
# Ordered maps as association lists

A map iterated in ascending key order, kept as the list of its entries.  `upsert`
is the access that creates a missing entry before it is changed; it keeps the order
(`ascending_upsert`) and changes the entry of its key only (`lookup_upsert`).
-/

set_option autoImplicit false

namespace Opencodepp.Library.OrderedMap

variable {κ ν : Type} [LT κ] [DecidableRel (fun a b : κ => a < b)] [DecidableEq κ]

/-- Change the entry of a key, creating it at its place in the order when absent. -/
def upsert (k : κ) (change : Option ν → ν) : List (κ × ν) → List (κ × ν)
  | [] => [(k, change none)]
  | (k', v) :: rest =>
      if k < k' then (k, change none) :: (k', v) :: rest
      else if k = k' then (k', change (some v)) :: rest
      else (k', v) :: upsert k change rest

omit [LT κ] [DecidableRel (fun a b : κ => a < b)] in
/-- Remove the entry of a key. -/
def erase (k : κ) (entries : List (κ × ν)) : List (κ × ν) := entries.filter (·.1 ≠ k)

/-- The keys after an update are the old ones and the updated one. -/
theorem mem_keys_upsert {k key : κ} {change : Option ν → ν} : ∀ {entries : List (κ × ν)},
    key ∈ (upsert k change entries).map Prod.fst →
      key = k ∨ key ∈ entries.map Prod.fst := by
  intro entries
  induction entries with
  | nil => simp [upsert]
  | cons entry rest inductionHypothesis =>
      intro member
      unfold upsert at member
      split at member
      · simpa using member
      · split at member
        · exact Or.inr (by simpa using member)
        · rw [List.map_cons] at member
          rcases List.mem_cons.mp member with same | later
          · exact Or.inr (by simp [same])
          · rcases inductionHypothesis later with same | deeper
            · exact Or.inl same
            · exact Or.inr (List.mem_cons_of_mem _ deeper)

omit [LT κ] [DecidableRel (fun a b : κ => a < b)] in
theorem mem_keys_of_mem_keys_erase {k key : κ} {entries : List (κ × ν)}
    (member : key ∈ (erase k entries).map Prod.fst) : key ∈ entries.map Prod.fst := by
  obtain ⟨entry, kept, same⟩ := List.mem_map.mp member
  exact List.mem_map.mpr ⟨entry, (List.mem_filter.mp kept).1, same⟩

/-! ## The order of the keys -/

/-- The entries stand in the order of their keys. -/
def Ascending (entries : List (κ × ν)) : Prop := entries.Pairwise fun e e' => e.1 < e'.1

omit [LT κ] [DecidableRel fun a b : κ => a < b] in
theorem lookup_cons_if (k : κ) (entry : κ × ν) (rest : List (κ × ν)) :
    (entry :: rest).lookup k = if k = entry.1 then some entry.2 else rest.lookup k := by
  by_cases here : k = entry.1
  · rw [if_pos here, here]
    exact List.lookup_cons_self
  · rw [if_neg here, List.lookup_cons, beq_eq_false_iff_ne.mpr here]

section Order

variable [Std.Irrefl fun a b : κ => a < b] [IsTrans κ fun a b => a < b]
  [Std.Trichotomous fun a b : κ => a < b]

omit [DecidableRel fun a b : κ => a < b] [IsTrans κ fun a b => a < b]
  [Std.Trichotomous fun a b : κ => a < b] in
/-- A key below all others has no entry. -/
theorem lookup_of_below {k : κ} {entries : List (κ × ν)} (below : ∀ e ∈ entries, k < e.1) :
    entries.lookup k = none := by
  refine List.lookup_eq_none_iff.mpr fun e member => ?_
  have less := below e member
  refine bne_iff_ne.mpr fun same => ?_
  rw [← same] at less
  exact Std.Irrefl.irrefl (r := fun a b : κ => a < b) k less

omit [Std.Irrefl fun a b : κ => a < b] in
theorem ascending_upsert (k : κ) (change : Option ν → ν) {entries : List (κ × ν)}
    (ascending : Ascending entries) : Ascending (upsert k change entries) := by
  induction entries with
  | nil => exact List.pairwise_singleton _ _
  | cons entry rest inductionHypothesis =>
      obtain ⟨first, others⟩ := List.pairwise_cons.mp ascending
      unfold upsert
      split
      · next less =>
          refine List.pairwise_cons.mpr ⟨fun e member => ?_, ascending⟩
          rcases List.mem_cons.mp member with same | later
          · rw [same]
            exact less
          · exact IsTrans.trans (r := fun a b : κ => a < b) _ _ _ less (first e later)
      · next notLess =>
          split
          · exact List.pairwise_cons.mpr ⟨first, others⟩
          · next other =>
              have above : entry.1 < k := by
                by_contra notAbove
                exact other (Std.Trichotomous.trichotomous (r := fun a b : κ => a < b) k entry.1
                  notLess notAbove)
              refine List.pairwise_cons.mpr ⟨fun e member => ?_, inductionHypothesis others⟩
              rcases mem_keys_upsert (List.mem_map_of_mem member) with same | old
              · rw [same]
                exact above
              · obtain ⟨e', member', same⟩ := List.mem_map.mp old
                rw [← same]
                exact first e' member'

omit [Std.Trichotomous fun a b : κ => a < b] in
/-- An update changes the entry of its key, and no other. -/
theorem lookup_upsert (k key : κ) (change : Option ν → ν) {entries : List (κ × ν)}
    (ascending : Ascending entries) : (upsert k change entries).lookup key =
      if key = k then some (change (entries.lookup k)) else entries.lookup key := by
  induction entries with
  | nil =>
      unfold upsert
      rw [lookup_cons_if]
      rfl
  | cons entry rest inductionHypothesis =>
      obtain ⟨first, others⟩ := List.pairwise_cons.mp ascending
      unfold upsert
      split
      · next less =>
          have absent : (entry :: rest).lookup k = none := lookup_of_below fun e member => by
            rcases List.mem_cons.mp member with same | later
            · rw [same]
              exact less
            · exact IsTrans.trans (r := fun a b : κ => a < b) _ _ _ less (first e later)
          rw [lookup_cons_if, absent]
      · split
        · next same =>
            obtain ⟨k', v⟩ := entry
            have same : k = k' := same
            simp only [lookup_cons_if, same, if_true]
            by_cases here : key = k' <;> simp [here]
        · next other =>
            obtain ⟨k', v⟩ := entry
            have other : k ≠ k' := other
            simp only [lookup_cons_if, inductionHypothesis others, if_neg other]
            by_cases here : key = k'
            · have different : k' ≠ k := fun same => other same.symm
              simp [here, different]
            · by_cases same : key = k
              · simp [same, other]
              · simp [here, same]

omit [DecidableRel fun a b : κ => a < b] [Std.Irrefl fun a b : κ => a < b]
  [IsTrans κ fun a b => a < b] [Std.Trichotomous fun a b : κ => a < b] in
theorem ascending_erase (k : κ) {entries : List (κ × ν)} (ascending : Ascending entries) :
    Ascending (erase k entries) :=
  List.Pairwise.filter _ ascending

omit [LT κ] [DecidableRel fun a b : κ => a < b] [Std.Irrefl fun a b : κ => a < b]
  [IsTrans κ fun a b => a < b] [Std.Trichotomous fun a b : κ => a < b] in
theorem lookup_erase (k key : κ) (entries : List (κ × ν)) :
    (erase k entries).lookup key = if key = k then none else entries.lookup key := by
  induction entries with
  | nil => simp [erase]
  | cons entry rest inductionHypothesis =>
      unfold erase at inductionHypothesis ⊢
      rw [List.filter_cons, lookup_cons_if]
      by_cases gone : entry.1 = k
      · have dropped : (decide (entry.1 ≠ k)) = false := by simpa using gone
        rw [dropped, if_neg (by decide), inductionHypothesis]
        by_cases same : key = k
        · rw [if_pos same, if_pos same]
        · rw [if_neg same, if_neg same, if_neg fun here => same (here.trans gone)]
      · have kept : (decide (entry.1 ≠ k)) = true := by simpa using gone
        rw [kept, if_pos rfl, lookup_cons_if, inductionHypothesis]
        by_cases here : key = entry.1
        · have other : key ≠ k := fun same => gone (here.symm.trans same)
          rw [if_pos here, if_neg other, if_pos here]
        · rw [if_neg here, if_neg here]

omit [DecidableRel fun a b : κ => a < b] [Std.Trichotomous fun a b : κ => a < b] in
/-- The first key of a map is the first of every map with the same entries. -/
theorem not_lt_head {entry entry' : κ × ν} {rest rest' : List (κ × ν)}
    (ascending : Ascending (entry :: rest))
    (same : ∀ k, (entry :: rest).lookup k = (entry' :: rest').lookup k) : ¬entry'.1 < entry.1 := by
  intro less
  obtain ⟨first, -⟩ := List.pairwise_cons.mp ascending
  have absent : (entry :: rest).lookup entry'.1 = none := lookup_of_below fun e member => by
    rcases List.mem_cons.mp member with here | later
    · rw [here]
      exact less
    · exact IsTrans.trans (r := fun a b : κ => a < b) _ _ _ less (first e later)
  rw [same, lookup_cons_if, if_pos rfl] at absent
  cases absent

omit [DecidableRel fun a b : κ => a < b] [IsTrans κ fun a b => a < b]
  [Std.Trichotomous fun a b : κ => a < b] in
/-- The entries of a key are the one it has. -/
theorem filter_key (k : κ) {entries : List (κ × ν)} (ascending : Ascending entries) :
    (entries.filter fun entry => entry.1 = k) = ((entries.lookup k).map fun v => (k, v)).toList := by
  induction entries with
  | nil => rfl
  | cons entry rest inductionHypothesis =>
      obtain ⟨first, others⟩ := List.pairwise_cons.mp ascending
      have later := inductionHypothesis others
      rw [List.filter_cons, lookup_cons_if]
      by_cases here : entry.1 = k
      · have absent : rest.lookup k = none := lookup_of_below (here ▸ first)
        rw [absent] at later
        rw [if_pos (by simpa using here), if_pos here.symm, later, ← here]
        rfl
      · rw [if_neg (by simpa using here), if_neg fun same => here same.symm, later]

omit [DecidableRel fun a b : κ => a < b] in
/-- Maps with the same entries are the same. -/
theorem ext_of_lookup {entries : List (κ × ν)} : ∀ {entries' : List (κ × ν)}, Ascending entries →
    Ascending entries' → (∀ k, entries.lookup k = entries'.lookup k) → entries = entries' := by
  induction entries with
  | nil =>
      intro entries' _ _ same
      cases entries' with
      | nil => rfl
      | cons entry rest =>
          have found := same entry.1
          rw [lookup_cons_if, if_pos rfl] at found
          cases found
  | cons entry rest inductionHypothesis =>
      intro entries' ascending ascending' same
      cases entries' with
      | nil =>
          have found := same entry.1
          rw [lookup_cons_if, if_pos rfl] at found
          cases found
      | cons entry' rest' =>
          have key : entry.1 = entry'.1 :=
            Std.Trichotomous.trichotomous (r := fun a b : κ => a < b) _ _
              (not_lt_head ascending' fun k => (same k).symm) (not_lt_head ascending same)
          obtain ⟨first, others⟩ := List.pairwise_cons.mp ascending
          obtain ⟨first', others'⟩ := List.pairwise_cons.mp ascending'
          obtain ⟨k, v⟩ := entry
          obtain ⟨k', v'⟩ := entry'
          have key : k = k' := key
          subst key
          have value : v = v' := by simpa [lookup_cons_if] using same k
          refine congrArg₂ List.cons (by rw [value]) (inductionHypothesis others others' fun key => ?_)
          by_cases here : key = k
          · rw [here, lookup_of_below first, lookup_of_below first']
          · simpa [lookup_cons_if, here] using same key

end Order

end Opencodepp.Library.OrderedMap
