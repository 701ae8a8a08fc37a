import Opencodepp.Memory.WorkspaceMemory

/-!
# When a write is an upsert

After a write of a key the workspace is to have one entry of that key, with the value that was
written; all others are as before, or the oldest of them is gone where the workspace was full of
other keys.  A write into a workspace that is not full does that.  In a full one the oldest entry
is overwritten and its key stays, even where the written key is there already: `upserted_iff`.
-/

set_option autoImplicit false

namespace Opencodepp.Memory

open Opencodepp.Core
open Opencodepp.Library
open Opencodepp.Store

structure Upserted (cap : Nat) (e : Entry) (before after : List Entry) : Prop where
  once : (after.filter (·.key = e.key)).map (·.value) = [e.value]
  others : after.filter (·.key ≠ e.key) = before.filter (·.key ≠ e.key) ∨
    cap ≤ (before.filter (·.key ≠ e.key)).length ∧ ∃ o, oldest before = some o ∧
      after.filter (·.key ≠ e.key) = (before.filter (·.key ≠ e.key)).erase o

/-- The oldest entry is what would be written in its place, and the written key has the value
already. -/
def Idle (root : Bytes) (before : List Entry) (e o : Entry) : Prop :=
  o = { e with scope := workspaceScope root, key := o.key : Entry }.stored ∧
    ∃ x ∈ before, x.key = e.key ∧ x.value = e.value

section Writes

variable {before : List Entry} (distinct : (before.map Entry.key).Nodup) {e w : Entry} {cap : Nat}

include distinct

/-- What is put under its own key is upserted. -/
theorem upserted_put (own : w.key = e.key) (value : w.value = e.value) :
    Upserted cap e before (Keyed.put Entry.key w before) where
  once := by
    have one := Keyed.filter_key_put w distinct
    rw [own] at one
    rw [one]
    exact congrArg ([·]) value
  others := .inl (Keyed.filter_put_of_ne Entry.key w before _ fun x same => by simp [same, own])

/-- What is put under the key of another entry is upserted only where it changes nothing. -/
theorem upserted_put_iff {o : Entry} (member : o ∈ before) (key : w.key = o.key)
    (other : o.key ≠ e.key) :
    Upserted cap e before (Keyed.put Entry.key w before) ↔
      o = w ∧ ∃ x ∈ before, x.key = e.key ∧ x.value = e.value := by
  have different : w.key ≠ e.key := fun same => other (key.symm.trans same)
  have named : (Keyed.put Entry.key w before).filter (·.key = e.key) =
      before.filter (·.key = e.key) :=
    Keyed.filter_put_of_ne Entry.key w before _ fun x same => by simp [same, different]
  have rest : (Keyed.put Entry.key w before).filter (·.key ≠ e.key) =
      Keyed.put Entry.key w (before.filter (·.key ≠ e.key)) :=
    Keyed.filter_put_of_pos Entry.key w before _ fun x same => by simp [same, different]
  have distinctRest : ((before.filter (·.key ≠ e.key)).map Entry.key).Nodup :=
    distinct.sublist (List.filter_sublist.map Entry.key)
  have inRest : o ∈ before.filter (·.key ≠ e.key) := List.mem_filter.mpr ⟨member, by simpa⟩
  constructor
  · rintro ⟨once, others⟩
    rw [named] at once
    rw [rest] at others
    have same : Keyed.put Entry.key w (before.filter (·.key ≠ e.key)) =
        before.filter (·.key ≠ e.key) := by
      rcases others with same | ⟨-, gone, -, erased⟩
      · exact same
      · -- a put keeps the number of entries, an erasure does not
        have length := congrArg List.length erased
        rw [Keyed.length_put, if_pos (List.mem_map.mpr ⟨o, inRest, key.symm⟩)] at length
        by_cases there : gone ∈ before.filter (·.key ≠ e.key)
        · have less := List.length_erase_of_mem there
          have some_ := List.length_pos_of_mem there
          omega
        · rw [erased, List.erase_of_not_mem there]
    have there := (Keyed.put_eq_self_iff distinctRest).mp same
    have single : ∀ x ∈ before, x.key = w.key → x = w := fun x inside keys =>
      List.inj_on_of_nodup_map distinct inside (List.mem_of_mem_filter there) keys
    refine ⟨single o member key.symm, ?_⟩
    obtain ⟨x, found, value⟩ : ∃ x ∈ before.filter (·.key = e.key), x.value = e.value := by
      rw [← List.mem_map, once]
      exact List.mem_cons_self
    obtain ⟨inside, keys⟩ := List.mem_filter.mp found
    exact ⟨x, inside, by simpa using keys, value⟩
  · rintro ⟨rfl, x, inside, keys, value⟩
    refine ⟨?_, .inl (rest.trans (Keyed.put_of_mem distinctRest inRest))⟩
    have one := Keyed.filter_key_of_mem distinct inside
    rw [keys] at one
    rw [named, one]
    exact congrArg ([·]) value

end Writes

/-- **A write is an upsert exactly when** the workspace is not full, or its oldest entry has the
written key, or the write changes nothing. -/
theorem upserted_iff (writes : List Write) {root : Bytes} {e : Entry} {caps : MemoryCfg}
    {id : Bytes} {s' : MemStore}
    (ok : writeEntry (runWrites .empty writes) root e caps = .ok (id, s')) :
    Upserted caps.maxEntries.toNat e (readEntries (runWrites .empty writes) root none)
        (readEntries s' root none) ↔
      (readEntries (runWrites .empty writes) root none).length < caps.maxEntries.toNat ∨
        ∀ o, oldest (readEntries (runWrites .empty writes) root none) = some o →
          o.key = e.key ∨ Idle root (readEntries (runWrites .empty writes) root none) e o := by
  have kept := kept_runWrites writes
  have distinct := kept.keys_distinct (workspaceScope root)
  rw [← readEntries_none kept] at distinct
  rw [(readEntries_writeEntry kept ok).2.1]
  generalize readEntries (runWrites .empty writes) root none = before at distinct
  unfold placed recycled
  by_cases full : caps.maxEntries.toNat ≤ before.length
  · rw [if_pos full]
    cases found : oldest before with
    | none =>
        refine ⟨fun _ => .inr fun o impossible => ?_, fun _ => upserted_put distinct rfl rfl⟩
        cases impossible
    | some o =>
        dsimp only
        have member := mem_of_oldest found
        by_cases own : o.key = e.key
        · refine ⟨fun _ => .inr fun o' same => ?_, fun _ => upserted_put distinct own rfl⟩
          cases same
          exact .inl own
        · rw [upserted_put_iff (w := ({ e with
            scope := workspaceScope root, key := o.key } : Entry).stored) distinct member rfl own]
          constructor
          · intro idle
            refine .inr fun o' same => ?_
            cases same
            exact .inr idle
          · rintro (few | upserts)
            · omega
            · exact (upserts o rfl).resolve_left own
  · rw [if_neg full]
    exact ⟨fun _ => .inl (Nat.lt_of_not_le full), fun _ => upserted_put distinct rfl rfl⟩

/-! ## Two slots -/

def note (key value : String) : Entry := ⟨[], .fact, [], str key, str value, [], 0, 0, []⟩

def twoSlots : MemoryCfg := { maxEntries := 2 }

def noted (key value : String) : Write := ⟨str "/w", note key value, twoSlots⟩

/-- The oldest of a full workspace is written again. -/
theorem oldest_note_upserted : ∃ id s',
    writeEntry (runWrites .empty [noted "a" "1", noted "b" "2"]) (str "/w") (note "a" "3")
        twoSlots = .ok (id, s') ∧
      Upserted twoSlots.maxEntries.toNat (note "a" "3")
        (readEntries (runWrites .empty [noted "a" "1", noted "b" "2"]) (str "/w") none)
        (readEntries s' (str "/w") none) := by
  have ok : ∃ id s', writeEntry (runWrites .empty [noted "a" "1", noted "b" "2"]) (str "/w")
      (note "a" "3") twoSlots = .ok (id, s') := ⟨_, _, rfl⟩
  obtain ⟨id, s', ok⟩ := ok
  have first : (oldest (readEntries (runWrites .empty [noted "a" "1", noted "b" "2"]) (str "/w")
      none)).map (·.key) = some (str "a") := by decide +kernel
  refine ⟨id, s', ok, (upserted_iff _ ok).mpr (.inr fun o found => .inl ?_)⟩
  rw [found] at first
  exact Option.some.inj first

/-- A key that is there is written again into a full workspace: its old value stays, and the
other entry is overwritten. -/
theorem rewrite_not_upserted : ∃ id s',
    writeEntry (runWrites .empty [noted "a" "1", noted "b" "2"]) (str "/w") (note "b" "3")
        twoSlots = .ok (id, s') ∧
      (readEntries s' (str "/w") none).map (fun e => (e.key, e.value)) =
        [(str "a", str "3"), (str "b", str "2")] ∧
      ¬Upserted 2 (note "b" "3")
        (readEntries (runWrites .empty [noted "a" "1", noted "b" "2"]) (str "/w") none)
        (readEntries s' (str "/w") none) := by
  refine ⟨_, _, rfl, by decide +kernel, fun upserted => absurd upserted.once ?_⟩
  decide +kernel

end Opencodepp.Memory
