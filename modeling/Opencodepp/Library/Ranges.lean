import Mathlib.Data.List.Basic
import Mathlib.Logic.Function.Basic

/-!
# Arrays with owners

An array grows at its end.  Every entry has an owner or is a tombstone, and every owner has a
range of positions.  The array is *owned* when the entries of an owner are exactly the ones in
its range.  Appending the entries of a new owner and overwriting the range of an owner keep
that, and dropping the tombstones leaves the entries of every owner together.
-/

set_option autoImplicit false

namespace Opencodepp.Library.Ranges

/-- Consecutive positions. -/
structure Range where
  first : Nat
  count : Nat
  deriving Repr, DecidableEq

namespace Range

/-- A position lies in the range. -/
def Has (r : Range) (i : Nat) : Prop := r.first ≤ i ∧ i < r.first + r.count

instance (r : Range) (i : Nat) : Decidable (r.Has i) := inferInstanceAs (Decidable (_ ∧ _))

end Range

/-- Overwrite a range. -/
def bury {α : Type} (tombstone : α) (r : Range) (entries : List α) : List α :=
  entries.mapIdx fun i entry => if r.Has i then tombstone else entry

variable {α κ : Type}

theorem getElem?_bury (tombstone : α) (r : Range) (entries : List α) (i : Nat) :
    (bury tombstone r entries)[i]? =
      entries[i]?.map fun entry => if r.Has i then tombstone else entry := by
  simp [bury]

@[simp] theorem length_bury (tombstone : α) (r : Range) (entries : List α) :
    (bury tombstone r entries).length = entries.length := by
  simp [bury]

/-- Nothing is lost with an empty range. -/
theorem bury_of_empty (tombstone : α) {r : Range} (empty : r.count = 0) (entries : List α) :
    bury tombstone r entries = entries := by
  refine List.ext_getElem? fun i => ?_
  have outside : ¬r.Has i := by
    unfold Range.Has
    omega
  simp [getElem?_bury, outside]

/-! ## Owned arrays -/

/-- The entries of an owner are exactly the ones in its range. -/
def Owned (owner : α → Option κ) (entries : List α) (ranges : κ → Option Range) : Prop :=
  ∀ i k, entries[i]?.bind owner = some k ↔ ∃ r ∈ ranges k, r.Has i

variable {owner : α → Option κ} {entries : List α} {ranges : κ → Option Range}

theorem owned_nil (nothing : ∀ k, ranges k = none) : Owned owner [] ranges := by
  intro i k
  simp [nothing k]

/-- No range reaches past the end. -/
theorem Owned.lt_length (owned : Owned owner entries ranges) {i : Nat} {k : κ} {r : Range}
    (range : ranges k = some r) (inside : r.Has i) : i < entries.length := by
  have here := (owned i k).mpr ⟨r, range, inside⟩
  obtain ⟨entry, found, _⟩ := Option.bind_eq_some_iff.mp here
  exact (List.getElem?_eq_some_iff.mp found).1

/-- A position lies in the range of one owner at most. -/
theorem Owned.unique (owned : Owned owner entries ranges) {i : Nat} {k k' : κ} {r r' : Range}
    (range : ranges k = some r) (inside : r.Has i) (range' : ranges k' = some r')
    (inside' : r'.Has i) : k = k' := by
  have here := (owned i k).mpr ⟨r, range, inside⟩
  have there := (owned i k').mpr ⟨r', range', inside'⟩
  exact Option.some.inj (here.symm.trans there)

section Updates

variable [DecidableEq κ]

/-- The entries of a new owner at the end. -/
theorem Owned.append (owned : Owned owner entries ranges) {k : κ} (fresh : ranges k = none)
    {more : List α} (theirs : ∀ entry ∈ more, owner entry = some k) :
    Owned owner (entries ++ more)
      (Function.update ranges k (some ⟨entries.length, more.length⟩)) := by
  intro i k'
  by_cases old : i < entries.length
  · rw [List.getElem?_append_left old, owned i k']
    by_cases same : k' = k
    · subst same
      simp [fresh, Range.Has, Nat.not_le.mpr old]
    · simp [Function.update_of_ne same]
  · rw [List.getElem?_append_right (by omega)]
    by_cases same : k' = k
    · subst same
      simp only [Function.update_self, Option.mem_def, Option.some.injEq, exists_eq_left', Range.Has]
      constructor
      · intro here
        obtain ⟨entry, found, _⟩ := Option.bind_eq_some_iff.mp here
        have := (List.getElem?_eq_some_iff.mp found).1
        omega
      · intro inside
        have short : i - entries.length < more.length := by omega
        rw [List.getElem?_eq_getElem short]
        exact theirs _ (List.getElem_mem short)
    · rw [Function.update_of_ne same]
      constructor
      · intro here
        obtain ⟨entry, found, owns⟩ := Option.bind_eq_some_iff.mp here
        rw [theirs entry (List.mem_of_getElem? found)] at owns
        exact absurd (Option.some.inj owns).symm same
      · rintro ⟨r, range, inside⟩
        exact absurd (owned.lt_length range inside) old

/-- An owner whose range is overwritten. -/
theorem Owned.bury (owned : Owned owner entries ranges) {k : κ} {r : Range}
    (range : ranges k = some r) {tombstone : α} (dead : owner tombstone = none) :
    Owned owner (bury tombstone r entries) (Function.update ranges k none) := by
  intro i k'
  have here := owned i k'
  rw [getElem?_bury]
  by_cases inside : r.Has i
  · have gone : (entries[i]?.map fun _ => tombstone).bind owner = none := by
      cases entries[i]? <;> simp [dead]
    simp only [if_pos inside, gone, reduceCtorEq, false_iff]
    rintro ⟨r', range', inside'⟩
    by_cases same : k' = k
    · subst same
      simp at range'
    · rw [Function.update_of_ne same] at range'
      exact same (owned.unique range' inside' range inside)
  · simp only [if_neg inside, Option.map_id', here]
    by_cases same : k' = k
    · subst same
      simp [range, inside]
    · rw [Function.update_of_ne same]

end Updates

/-! ## Dropping the tombstones -/

/-- Equal keys stand together. -/
def Grouped : List κ → Prop
  | [] => True
  | k :: rest => (k ∈ rest → rest.head? = some k) ∧ Grouped rest

/-- Between two entries of an owner there is nothing else. -/
def Convex (owners : List (Option κ)) : Prop :=
  ∀ (i j l : Nat) (k : κ), i < j → j ≤ l → owners[i]? = some (some k) →
    owners[l]? = some (some k) → owners[j]? = some (some k)

theorem grouped_of_convex : ∀ {owners : List (Option κ)}, Convex owners →
    Grouped (owners.filterMap id) := by
  intro owners
  induction owners with
  | nil => exact fun _ => trivial
  | cons o rest ih =>
      intro convex
      have tail : Convex rest := by
        intro i j l k before upTo first last
        have := convex (i + 1) (j + 1) (l + 1) k (by omega) (by omega)
        simp only [List.getElem?_cons_succ] at this
        exact this first last
      cases o with
      | none => simpa using ih tail
      | some k =>
          refine ⟨fun again => ?_, ih tail⟩
          obtain ⟨o, member, same⟩ := List.mem_filterMap.mp again
          obtain ⟨l, found⟩ := List.mem_iff_getElem?.mp member
          rw [id_eq] at same
          subst same
          have next := convex 0 1 (l + 1) k (by omega) (by omega) rfl (by simpa using found)
          cases rest with
          | nil => simp at next
          | cons o rest =>
              simp only [List.getElem?_cons_succ, List.getElem?_cons_zero, Option.some.injEq] at next
              subst next
              rfl

theorem Owned.convex (owned : Owned owner entries ranges) : Convex (entries.map owner) := by
  have key : ∀ (i : Nat) (k : κ),
      (entries.map owner)[i]? = some (some k) ↔ entries[i]?.bind owner = some k := by
    intro i k
    cases found : entries[i]? <;> simp [found]
  intro i j l k before upTo first last
  rw [key] at first last ⊢
  obtain ⟨r, range, inside⟩ := (owned i k).mp first
  obtain ⟨r', range', inside'⟩ := (owned l k).mp last
  obtain rfl : r = r' := Option.some.inj (range.symm.trans range')
  exact (owned j k).mpr ⟨r, range, by unfold Range.Has at *; omega⟩

/-- The keys of what is left stand together. -/
theorem Owned.grouped (owned : Owned owner entries ranges) : Grouped (entries.filterMap owner) := by
  simpa [List.filterMap_map] using grouped_of_convex owned.convex

variable [DecidableEq κ]

/-- A key that comes again comes at once. -/
theorem Grouped.idxOf_eq_zero {key : κ} {rest : List κ} (grouped : Grouped (key :: rest))
    (again : key ∈ rest) : rest.idxOf key = 0 := by
  cases rest with
  | nil => simp at again
  | cons next rest =>
      obtain rfl : next = key := by simpa using grouped.1 again
      simp

/-- Where the entries of a key are when equal keys stand together. -/
def rangeOf (k : κ) (keys : List κ) : Range := ⟨keys.idxOf k, keys.count k⟩

theorem rangeOf_cons_self (k : κ) (keys : List κ) :
    rangeOf k (k :: keys) = ⟨0, (rangeOf k keys).count + 1⟩ := by
  simp [rangeOf]

theorem rangeOf_cons_of_ne {k key : κ} (other : key ≠ k) (keys : List κ) :
    rangeOf k (key :: keys) = ⟨(rangeOf k keys).first + 1, (rangeOf k keys).count⟩ := by
  simp [rangeOf, List.idxOf_cons_ne _ other, List.count_cons_of_ne other]

theorem count_rangeOf_of_notMem {k : κ} {keys : List κ} (absent : k ∉ keys) :
    (rangeOf k keys).count = 0 :=
  List.count_eq_zero_of_not_mem absent

theorem Grouped.getElem?_eq_some_iff : ∀ {keys : List κ}, Grouped keys → ∀ (j : Nat) (k : κ),
    keys[j]? = some k ↔ k ∈ keys ∧ (rangeOf k keys).Has j := by
  intro keys
  induction keys with
  | nil => simp
  | cons key rest ih =>
      intro grouped j k
      have rest_iff := ih grouped.2
      by_cases same : key = k
      · subst same
        cases j with
        | zero => simp [rangeOf, Range.Has]
        | succ j =>
            rw [List.getElem?_cons_succ, rest_iff]
            simp only [rangeOf, Range.Has, List.idxOf_cons_self, List.count_cons_self,
              List.mem_cons_self, true_and]
            constructor
            · rintro ⟨again, inside⟩
              have first := grouped.idxOf_eq_zero again
              omega
            · intro inside
              have again : key ∈ rest := List.count_pos_iff.mp (by omega)
              refine ⟨again, ?_⟩
              have first := grouped.idxOf_eq_zero again
              omega
      · cases j with
        | zero => simp [rangeOf, Range.Has, same, List.idxOf_cons_ne _ same, Ne.symm same]
        | succ j =>
            rw [List.getElem?_cons_succ, rest_iff]
            simp only [rangeOf, Range.Has, List.idxOf_cons_ne _ same, List.count_cons_of_ne same,
              List.mem_cons, Ne.symm same, false_or]
            constructor <;> rintro ⟨member, inside⟩ <;> exact ⟨member, by omega⟩

end Opencodepp.Library.Ranges
