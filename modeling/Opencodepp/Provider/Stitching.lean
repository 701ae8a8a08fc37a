import Opencodepp.Library.Tracks
import Opencodepp.Provider.OpenAiStream

/-!
# Tool calls in pieces

The fragments of a tool call arrive between those of other calls.  The adapter for chat
completions keeps the calls in progress in the order of their indices, and under every index it
holds what the fragments of that index come to (`lookup_gather`), wherever they stood.
-/

set_option autoImplicit false

namespace Opencodepp.Provider

open Opencodepp.Library
open Opencodepp.Library.OrderedMap
open Opencodepp.Util

namespace OpenAi

/-- The index of a fragment. -/
def indexOf (tc : JVal) : UInt64 := getNum tc "index"

/-- The indices the fragments of chunks have. -/
def indices (ds : List JVal) : List UInt64 := (ds.flatMap fragments).map indexOf

/-- What a fragment does to the call of its index. -/
def fragmentUpdate (tc : JVal) : Update UInt64 PendingTool :=
  (indexOf tc, fun old => some (mergeFragment tc old))

/-- What the fragments of an index come to. -/
def assembled (i : UInt64) (tcs : List JVal) : Option PendingTool :=
  track i (tcs.map fragmentUpdate) none

theorem keys_fragmentUpdates (tcs : List JVal) :
    (tcs.map fragmentUpdate).map Prod.fst = tcs.map indexOf := by
  rw [List.map_map]
  rfl

theorem ascending_gather (tcs : List JVal) : ∀ {pending : Pending}, Ascending pending →
    Ascending (gather pending tcs) := by
  induction tcs with
  | nil => exact fun ascending => ascending
  | cons tc rest inductionHypothesis =>
      intro pending ascending
      exact inductionHypothesis (ascending_upsert (indexOf tc) (mergeFragment tc) ascending)

/-- **Every index holds what its own fragments come to.** -/
theorem lookup_gather (i : UInt64) (tcs : List JVal) : ∀ {pending : Pending}, Ascending pending →
    (gather pending tcs).lookup i = track i (tcs.map fragmentUpdate) (pending.lookup i) := by
  induction tcs with
  | nil => exact fun _ => rfl
  | cons tc rest inductionHypothesis =>
      intro pending ascending
      have kept := ascending_upsert (indexOf tc) (mergeFragment tc) ascending
      have here := lookup_upsert (indexOf tc) i (mergeFragment tc) ascending
      rw [List.map_cons, track_cons]
      show (gather (upsert (indexOf tc) (mergeFragment tc) pending) rest).lookup i = _
      rw [inductionHypothesis kept, here]
      by_cases same : i = indexOf tc
      · rw [if_pos same, if_pos (show (fragmentUpdate tc).1 = i from same.symm), same]
        rfl
      · rw [if_neg same, if_neg (show (fragmentUpdate tc).1 ≠ i from fun other => same other.symm)]

theorem lookup_gather_nil (i : UInt64) (tcs : List JVal) :
    (gather [] tcs).lookup i = assembled i tcs :=
  lookup_gather i tcs List.Pairwise.nil

theorem assembled_append (i : UInt64) (first second : List JVal) :
    assembled i (first ++ second) = track i (second.map fragmentUpdate) (assembled i first) := by
  unfold assembled
  rw [List.map_append, track_append]

/-- Fragments of other indices do nothing. -/
theorem assembled_append_of_absent {i : UInt64} (first : List JVal) {second : List JVal}
    (absent : i ∉ second.map indexOf) : assembled i (first ++ second) = assembled i first := by
  rw [assembled_append, track_of_absent]
  rwa [keys_fragmentUpdates]

theorem assembled_isSome {i : UInt64} {tcs : List JVal} (present : i ∈ tcs.map indexOf) :
    (assembled i tcs).isSome = true := by
  refine track_isSome (fun update member old => ?_) (.inr ?_)
  · obtain ⟨tc, _, rfl⟩ := List.mem_map.mp member
    rfl
  · rwa [keys_fragmentUpdates]

end OpenAi

end Opencodepp.Provider
