import Mathlib.Data.List.Basic

/-!
# The track of a key

Updates of the entries of a map, each under its key, act on every key on their own: what they
make of one entry is the track of its key, the updates with that key in their order.  A store
that applies updates one after the other holds, under every key, what the track of the key makes
of the old entry, however the updates of different keys are interleaved.
-/

set_option autoImplicit false

namespace Opencodepp.Library

/-- A change of the entry of a key; no entry is `none`. -/
abbrev Update (κ ν : Type) : Type := κ × (Option ν → Option ν)

variable {κ ν : Type} [DecidableEq κ]

/-- What updates make of the entry of a key. -/
def track (k : κ) (updates : List (Update κ ν)) (old : Option ν) : Option ν :=
  (updates.filter fun update => update.1 = k).foldl (fun entry update => update.2 entry) old

@[simp] theorem track_nil (k : κ) (old : Option ν) : track k [] old = old := rfl

theorem track_cons (k : κ) (update : Update κ ν) (updates : List (Update κ ν)) (old : Option ν) :
    track k (update :: updates) old =
      track k updates (if update.1 = k then update.2 old else old) := by
  unfold track
  by_cases same : update.1 = k <;> simp [same]

theorem track_append (k : κ) (first second : List (Update κ ν)) (old : Option ν) :
    track k (first ++ second) old = track k second (track k first old) := by
  unfold track
  rw [List.filter_append, List.foldl_append]

/-- Updates of other keys do nothing. -/
theorem track_of_absent {k : κ} {updates : List (Update κ ν)}
    (absent : k ∉ updates.map Prod.fst) (old : Option ν) : track k updates old = old := by
  have none_ : (updates.filter fun update => update.1 = k) = [] := by
    refine List.filter_eq_nil_iff.mpr fun update member => ?_
    have other : update.1 ≠ k := fun same => absent (same ▸ List.mem_map_of_mem member)
    simpa using other
  unfold track
  rw [none_]
  rfl

/-- Only the track of the key counts. -/
theorem track_congr {k : κ} {updates updates' : List (Update κ ν)}
    (same : (updates.filter fun update => update.1 = k) =
      updates'.filter fun update => update.1 = k) (old : Option ν) :
    track k updates old = track k updates' old := by
  unfold track
  rw [same]

/-- Updates that all leave an entry leave one under each of their keys. -/
theorem track_isSome {k : κ} {updates : List (Update κ ν)}
    (fill : ∀ update ∈ updates, ∀ old, (update.2 old).isSome = true) : ∀ {old : Option ν},
    old.isSome = true ∨ k ∈ updates.map Prod.fst → (track k updates old).isSome = true := by
  induction updates with
  | nil =>
      intro old present
      simpa using present
  | cons update rest inductionHypothesis =>
      intro old present
      rw [track_cons]
      have fills := fill update List.mem_cons_self
      refine inductionHypothesis (fun other member => fill other (List.mem_cons_of_mem _ member)) ?_
      by_cases same : update.1 = k
      · rw [if_pos same]
        exact .inl (fills old)
      · rw [if_neg same]
        refine present.imp id fun member => ?_
        exact (List.mem_cons.mp member).resolve_left fun here => same here.symm

end Opencodepp.Library
