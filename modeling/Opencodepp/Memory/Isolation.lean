import Opencodepp.Memory.SessionMemory
import Opencodepp.Memory.Upsert

/-!
# What holds of every workspace

However writes into workspaces and checkpoints of sessions alternate, a workspace never holds
more entries than its cap, nor two of one key, nor one that would be turned down; and what is
done elsewhere does not change it.  An entry that is stored under the key of another one is still
valid, since keys and values are checked apart.
-/

set_option autoImplicit false

namespace Opencodepp.Memory

open Opencodepp.Core
open Opencodepp.Library
open Opencodepp.Store

/-- Keys and values are searched for secrets apart. -/
theorem hasSecretValue_mix {key key' value value' : Bytes}
    (one : hasSecretValue key value = false) (other : hasSecretValue key' value' = false) :
    hasSecretValue key value' = false := by
  unfold hasSecretValue at one other ⊢
  simp only [Bool.or_eq_false_iff] at one other ⊢
  obtain ⟨⟨⟨⟨named, -⟩, starts⟩, -⟩, -⟩ := one
  obtain ⟨⟨⟨⟨-, named'⟩, -⟩, starts'⟩, inside⟩ := other
  exact ⟨⟨⟨⟨named, named'⟩, starts⟩, starts'⟩, inside⟩

/-- A valid value is valid under any key of a valid entry. -/
theorem validateEntry_mix {e o e' : Entry} {caps : MemoryCfg} (valid : validateEntry e caps = .ok ())
    (there : validateEntry o caps = .ok ()) (key : e'.key = o.key) (value : e'.value = e.value) :
    validateEntry e' caps = .ok () := by
  obtain ⟨-, fits, secret⟩ := (validateEntry_eq_ok_iff e caps).mp valid
  obtain ⟨chars, -, secret'⟩ := (validateEntry_eq_ok_iff o caps).mp there
  rw [validateEntry_eq_ok_iff, key, value]
  exact ⟨chars, fits, hasSecretValue_mix secret' secret⟩

/-- Entries within the caps. -/
structure Within (caps : MemoryCfg) (entries : List Entry) : Prop where
  few : entries.length ≤ caps.maxEntries.toNat
  valid : ∀ e ∈ entries, validateEntry e caps = .ok ()

theorem value_placed (root : Bytes) (caps : MemoryCfg) (existing : List Entry) (e : Entry) :
    (placed root caps existing e).value = e.value := by
  obtain ⟨key, form, -⟩ := recycled_eq existing caps { e with scope := workspaceScope root }
  unfold placed
  rw [form]

/-- A full workspace has an entry of the key that is written. -/
theorem key_placed_of_full {root : Bytes} {caps : MemoryCfg} {existing : List Entry}
    (some_ : 0 < caps.maxEntries.toNat) (full : caps.maxEntries.toNat ≤ existing.length)
    (e : Entry) : (placed root caps existing e).key ∈ existing.map Entry.key := by
  unfold placed recycled
  rw [if_pos full]
  cases found : oldest existing with
  | none =>
      rw [(Ring.oldest_eq_none_iff _ _).mp found] at full
      exact absurd some_ (Nat.not_lt.mpr full)
  | some o => exact List.mem_map.mpr ⟨o, mem_of_oldest found, rfl⟩

/-- **One write keeps a workspace within its caps.** -/
theorem Within.put {root : Bytes} {caps : MemoryCfg} {existing : List Entry}
    (within : Within caps existing) (some_ : 0 < caps.maxEntries.toNat) {e : Entry}
    (valid : validateEntry e caps = .ok ()) :
    Within caps (Keyed.put Entry.key (placed root caps existing e).stored existing) where
  few := by
    have few := within.few
    rw [Keyed.length_put]
    split
    · exact few
    · rename_i absent
      by_cases full : caps.maxEntries.toNat ≤ existing.length
      · exact absurd (key_placed_of_full some_ full e) absent
      · omega
  valid x member := by
    rcases Keyed.mem_put Entry.key member with rfl | old
    · have value := value_placed root caps existing e
      rcases key_placed root caps existing e with own | ⟨o, there, taken⟩
      · exact validateEntry_mix valid valid own value
      · exact validateEntry_mix valid (within.valid o there) taken value
    · exact within.valid x old

/-- A command under fixed caps. -/
def Command.Under (caps : MemoryCfg) : Command → Prop
  | .write w => w.caps = caps
  | .checkpoint _ => True

theorem within_runCommands {caps : MemoryCfg} (some_ : 0 < caps.maxEntries.toNat)
    (commands : List Command) (fixed : ∀ command ∈ commands, command.Under caps) (root : Bytes) :
    Within caps (readEntries (runCommands commands) root none) := by
  induction commands using List.reverseRecOn with
  | nil => exact ⟨Nat.zero_le _, fun e member => absurd member List.not_mem_nil⟩
  | append_singleton commands command inductionHypothesis =>
      have before := inductionHypothesis fun c member => fixed c (List.mem_append_left _ member)
      have kept := kept_runCommands commands
      rw [runCommands_concat]
      by_cases other : command.workspace ≠ some root
      · rw [readEntries_runCommand kept command other none]
        exact before
      · cases command with
        | checkpoint c => exact absurd (fun impossible => by cases impossible) other
        | write w =>
            obtain ⟨root', e, caps'⟩ := w
            obtain rfl : root' = root := by
              rw [ne_eq, not_not] at other
              exact Option.some.inj other
            obtain rfl : caps' = caps := fixed _ (List.mem_append_right _ List.mem_cons_self)
            show Within caps' (readEntries (Write.run _ ⟨root', e, caps'⟩) root' none)
            unfold Write.run
            dsimp only
            cases ok : writeEntry (runCommands commands) root' e caps' with
            | error failure => exact before
            | ok result =>
                dsimp only
                rw [(readEntries_writeEntry kept ok).2.1]
                exact before.put some_ (of_writeEntry ok).1

/-- **Every workspace is sound, and its own.**  After any writes under fixed caps and any
checkpoints a workspace has at most so many entries, with distinct keys, all of them valid; and
no write into another one and no checkpoint changes what is read of it. -/
theorem workspaces_sound (caps : MemoryCfg) (some_ : 0 < caps.maxEntries.toNat)
    (commands : List Command) (fixed : ∀ command ∈ commands, command.Under caps) (root : Bytes)
    (kind : Option Kind) :
    (readEntries (runCommands commands) root kind).length ≤ caps.maxEntries.toNat ∧
      ((readEntries (runCommands commands) root kind).map Entry.key).Nodup ∧
      (∀ e ∈ readEntries (runCommands commands) root kind, validateEntry e caps = .ok ()) ∧
      ∀ command : Command, command.workspace ≠ some root →
        readEntries (runCommand (runCommands commands) command) root kind =
          readEntries (runCommands commands) root kind := by
  have kept := kept_runCommands commands
  have within := within_runCommands some_ commands fixed root
  have distinct := kept.keys_distinct (workspaceScope root)
  have part : (readEntries (runCommands commands) root kind).Sublist
      (readEntries (runCommands commands) root none) := by
    cases kind with
    | none => exact List.Sublist.refl _
    | some k =>
        rw [readEntries_kind]
        exact List.filter_sublist
  rw [← readEntries_none kept] at distinct
  exact ⟨part.length_le.trans within.few, distinct.sublist (part.map Entry.key),
    fun e member => within.valid e (part.subset member),
    fun command other => readEntries_runCommand kept command other kind⟩

/-- Three notes for two slots, and a checkpoint. -/
def mixedCommands : List Command :=
  [.write (noted "a" "1"), .checkpoint ⟨7, str "s", [], 5, [str "x"], []⟩,
    .write (noted "b" "2"), .write (noted "c" "3")]

theorem workspaces_sound_mixed : (∀ command ∈ mixedCommands, command.Under twoSlots) ∧
    (readEntries (runCommands mixedCommands) (str "/w") none).length ≤ 2 := by
  have fixed : ∀ command ∈ mixedCommands, command.Under twoSlots := by
    simp only [mixedCommands, List.forall_mem_cons]
    exact ⟨rfl, trivial, rfl, rfl, fun _ member => absurd member List.not_mem_nil⟩
  exact ⟨fixed, (workspaces_sound twoSlots (by decide) mixedCommands fixed (str "/w") none).1⟩

end Opencodepp.Memory
