import Opencodepp.Tools.WriteFrame

/-!
# Where file.write breaks the frame

When something lies under a name beside the target, a run without any fault already loses it.  So
the frame is kept under every schedule of faults exactly when the names are clean
(`fileWrite_keepsFrame_iff`).
-/

set_option autoImplicit false

namespace Opencodepp.Tools

open Opencodepp.Core
open Opencodepp.Library
open Opencodepp.Library.Disk

/-- No call is refused. -/
def Clear (d : Disk) : Prop := ∀ k, d.fault k = .none

/-! ## One atomic write without faults -/

section Atomic

variable {path content : Bytes} {d : Disk}

theorem writeFileAtomic_of_clear (clear : Clear d) (opens : d.Opens (tmpOf path)) :
    writeFileAtomic path content d =
      if d.canCreate path = true ∧ d.node (.of path) ≠ some .dir then
        (.ok (), (((withTmp path content d).unset (.of (tmpOf path))).set (.of path)
          (.file content)).tick)
      else (.error (ioError "rename"), (withTmp path content d).tick.remove (tmpOf path)) := by
  have moves : (d.set (.of (tmpOf path)) (.file content)).tick.rename (tmpOf path) path = _ :=
    rename_withTmp opens content
  have steady : (withTmp path content d).fate = .none := clear _
  have fate : d.fate = .none := clear _
  unfold writeFileAtomic
  dsimp only
  rw [write_of_opens opens, fate]
  dsimp only
  rw [moves]
  by_cases allowed : d.canCreate path = true ∧ d.node (.of path) ≠ some .dir
  · rw [if_pos ⟨allowed.1, allowed.2, steady⟩, if_pos allowed]
  · rw [if_neg fun all => allowed ⟨all.1, all.2.1⟩, if_neg allowed]

theorem writeFileAtomic_of_closed (closed : ¬d.Opens (tmpOf path)) :
    writeFileAtomic path content d = (.error (ioError "create"), d.tick) := by
  unfold writeFileAtomic
  dsimp only
  rw [write_of_not_opens closed]

theorem fault_writeFileAtomic_of_clear (clear : Clear d) :
    Clear (writeFileAtomic path content d).2 := by
  by_cases opens : d.Opens (tmpOf path)
  · rw [writeFileAtomic_of_clear clear opens]
    split
    · exact clear
    · intro k
      rw [fault_remove]
      exact clear k
  · rw [writeFileAtomic_of_closed opens]
    exact clear

theorem sparesTmp_of_clear (clear : Clear d) : SparesTmp path content d := by
  have moves (opens : d.Opens (tmpOf path)) :
      (d.set (.of (tmpOf path)) (.file content)).tick.rename (tmpOf path) path = _ :=
    rename_withTmp opens content
  have fate : d.fate = .none := clear _
  unfold SparesTmp
  by_cases opens : d.Opens (tmpOf path)
  · rw [write_of_opens opens, fate]
    dsimp only
    rw [moves opens]
    split
    · trivial
    · next refused =>
        split at refused
        · cases refused
        · cases refused
          exact clear _
  · rw [write_of_not_opens opens]
    trivial

theorem effect_of_clear (clear : Clear d) :
    AtomicEffect path content d (writeFileAtomic path content d) :=
  atomicEffect (sparesTmp_of_clear clear)

/-- Without faults a write that can begin loses what was under the temporary name. -/
theorem node_tmp_of_clear (clear : Clear d) (opens : d.Opens (tmpOf path))
    (other : FileId.of path ≠ .of (tmpOf path)) :
    (writeFileAtomic path content d).2.node (.of (tmpOf path)) = none := by
  rw [writeFileAtomic_of_clear clear opens]
  split
  · next allowed =>
      dsimp only
      rw [node_renamed opens allowed.1 allowed.2, Function.update_of_ne other.symm,
        Function.update_self]
  · dsimp only
    have same : (withTmp path content d).tick.node = (withTmp path content d).node := rfl
    rw [node_remove_tmp opens same (clear _), Function.update_self]

/-- Without faults a target that can be replaced is. -/
theorem node_of_clear (clear : Clear d) (opens : d.Opens (tmpOf path))
    (creatable : d.canCreate path = true) (notDir : d.node (.of path) ≠ some .dir) :
    (writeFileAtomic path content d).1 = .ok () ∧
      (writeFileAtomic path content d).2.node (.of path) = some (.file content) := by
  rw [writeFileAtomic_of_clear clear opens, if_pos ⟨creatable, notDir⟩]
  refine ⟨rfl, ?_⟩
  dsimp only
  rw [node_renamed opens creatable notDir, Function.update_self]

/-- Nothing under another name changes. -/
theorem AtomicEffect.node_ne {outcome : Except Failure Unit × Disk}
    (effect : AtomicEffect path content d outcome) {id : FileId} (target : id ≠ .of path)
    (tmp : id ≠ .of (tmpOf path)) : outcome.2.node id = d.node id := by
  cases effect with
  | nothing same => rw [same]
  | cleaned opens node => rw [node, Function.update_of_ne tmp]
  | renamed opens creatable notDir node =>
      rw [node, Function.update_of_ne target, Function.update_of_ne tmp]

/-- What is gone from the temporary name does not come back. -/
theorem AtomicEffect.node_tmp {outcome : Except Failure Unit × Disk}
    (effect : AtomicEffect path content d outcome)
    (other : FileId.of path ≠ .of (tmpOf path)) (gone : d.node (.of (tmpOf path)) = none) :
    outcome.2.node (.of (tmpOf path)) = none := by
  cases effect with
  | nothing same => rw [same, gone]
  | cleaned opens node => rw [node, Function.update_self]
  | renamed opens creatable notDir node =>
      rw [node, Function.update_of_ne other.symm, Function.update_self]

end Atomic

/-! ## The whole write without faults -/

section Commit

variable {plan : WritePlan} {d : Disk}

theorem commitSpares_of_clear (clear : Clear d) : CommitSpares plan d := by
  have read (path : Bytes) : Clear (readWholeFile path d).2 := by
    have ticks : (d.read path).2 = d.tick := rfl
    unfold readWholeFile
    generalize d.read path = outcome at ticks ⊢
    obtain ⟨result, after⟩ := outcome
    obtain rfl : after = d.tick := ticks
    cases result <;> exact clear
  have kept : Clear (keepShadow plan d).2 := by
    unfold keepShadow
    have whole := read plan.target
    generalize readWholeFile plan.target d = outcome at whole ⊢
    split
    · split <;> exact fault_writeFileAtomic_of_clear whole
    · exact clear
  refine ⟨fun _ => ⟨clear _, sparesTmp_of_clear (read _)⟩, sparesTmp_of_clear kept, ?_⟩
  have written : Clear (writeFileAtomic plan.target plan.content (keepShadow plan d).2).2 :=
    fault_writeFileAtomic_of_clear kept
  generalize writeFileAtomic plan.target plan.content (keepShadow plan d).2 = outcome at written ⊢
  obtain ⟨result, after⟩ := outcome
  cases result with
  | ok _ => exact written _
  | error failure =>
      exact fun previous _ =>
        ⟨sparesTmp_of_clear written, fault_writeFileAtomic_of_clear written _⟩

/-- A name other than the target that has lost what was there breaks the frame. -/
theorem not_frameKept_of_lost {target content : Bytes} {outcome : ToolResult × Disk} {id : FileId}
    (other : id ≠ .of target) (lost : outcome.2.node id ≠ d.node id) :
    ¬FrameKept target content d outcome := by
  intro kept
  by_cases ok : outcome.1.status = .ok
  · rw [kept.written ok, Function.update_of_ne other] at lost
    exact lost rfl
  · exact lost (congrFun (kept.untouched ok) id)

/-- What a run leaves under a name other than that of the shadow is what the writes of the target
leave there. -/
theorem node_commitWrite_of_ne {id : FileId} {n : Option Node}
    (other : id ≠ .of (shadowOf plan.target))
    (written : (writeFileAtomic plan.target plan.content (keepShadow plan d).2).2.node id = n)
    (rolledBack : ∀ previous, (keepShadow plan d).1 = some previous →
      (writeFileAtomic plan.target previous (writeFileAtomic plan.target plan.content
        (keepShadow plan d).2).2).2.node id = n) :
    (commitWrite plan d).2.node id = n := by
  unfold commitWrite
  generalize keepShadow plan d = kept at written rolledBack ⊢
  dsimp only
  generalize writeFileAtomic plan.target plan.content kept.2 = outcome at written rolledBack ⊢
  obtain ⟨result, after⟩ := outcome
  cases result with
  | ok _ => exact (node_remove_other _ other).trans written
  | error failure =>
      dsimp only
      cases found : kept.1 with
      | none => exact written
      | some previous => exact (node_remove_other _ other).trans (rolledBack previous found)

/-- Behind a zero byte all names beside a target are the target. -/
theorem entry_beside {path : Bytes} (zero : (0 : UInt8) ∈ path) (ending : Bytes) :
    d.entry (path ++ ending) = d.entry path := by
  rw [entry, entry, FileId.of, FileId.of, asksDirectory, asksDirectory, cString_beside zero]

theorem canCreate_beside {path : Bytes} (zero : (0 : UInt8) ∈ path) (ending : Bytes) :
    d.canCreate (path ++ ending) = d.canCreate path := by
  rw [canCreate, canCreate, FileId.of, FileId.of, asksDirectory, asksDirectory,
    cString_beside zero]

theorem fileId_beside {path : Bytes} (zero : (0 : UInt8) ∈ path) (ending : Bytes) :
    FileId.of (path ++ ending) = FileId.of path := by
  rw [FileId.of, FileId.of, cString_beside zero]

theorem node_of_not_free {path : Bytes} (taken : ¬Free d path) :
    d.Opens path ∧ d.entry path ≠ none ∧ d.node (.of path) ≠ none := by
  obtain ⟨opens, there⟩ := Classical.not_imp.mp taken
  exact ⟨opens, there, entry_of_canCreate opens.1 ▸ there⟩

/-! ### What lies under the name of the shadow -/

/-- The tree just before the shadow is removed. -/
def beforeRemoval (plan : WritePlan) (d : Disk) : Disk :=
  match writeFileAtomic plan.target plan.content (keepShadow plan d).2 with
  | (.ok _, after) => after
  | (.error _, after) =>
      match (keepShadow plan d).1 with
      | some previous => (writeFileAtomic plan.target previous after).2
      | none => after

/-- The shadow is removed after a success and after a rollback. -/
def Removes (plan : WritePlan) (d : Disk) : Prop :=
  (keepShadow plan d).1 ≠ none ∨
    (writeFileAtomic plan.target plan.content (keepShadow plan d).2).1 = .ok ()

theorem commitWrite_of_removes (removes : Removes plan d) :
    (commitWrite plan d).2 = (beforeRemoval plan d).remove (shadowOf plan.target) := by
  unfold Removes at removes
  unfold commitWrite beforeRemoval
  generalize keepShadow plan d = kept at removes ⊢
  dsimp only
  generalize writeFileAtomic plan.target plan.content kept.2 = outcome at removes ⊢
  obtain ⟨result, after⟩ := outcome
  cases result with
  | ok _ => rfl
  | error failure =>
      cases found : kept.1 with
      | none => simp [found] at removes
      | some previous => rfl

/-- What the shadow leaves, and a write of the target keeps, is there before the removal. -/
theorem beforeRemoval_of_kept {P : Disk → Prop} (clear : Clear (keepShadow plan d).2)
    (start : P (keepShadow plan d).2)
    (step : ∀ content before, Clear before → P before →
      P (writeFileAtomic plan.target content before).2) :
    P (beforeRemoval plan d) ∧ Clear (beforeRemoval plan d) := by
  unfold beforeRemoval
  have written := step plan.content _ clear start
  have still : Clear (writeFileAtomic plan.target plan.content (keepShadow plan d).2).2 :=
    fault_writeFileAtomic_of_clear clear
  generalize writeFileAtomic plan.target plan.content (keepShadow plan d).2 = outcome
    at written still ⊢
  obtain ⟨result, after⟩ := outcome
  cases result with
  | ok _ => exact ⟨written, still⟩
  | error failure =>
      dsimp only
      cases (keepShadow plan d).1 with
      | none => exact ⟨written, still⟩
      | some previous =>
          exact ⟨step previous after still written, fault_writeFileAtomic_of_clear still⟩

/-- A shadow that was there before is removed. -/
theorem not_frameKept_of_shadow (removes : Removes plan d) (apart : Apart plan.target)
    (clear : Clear (keepShadow plan d).2)
    (start : (keepShadow plan d).2.Removable (shadowOf plan.target))
    (there : d.node (.of (shadowOf plan.target)) ≠ none) :
    ¬FrameKept plan.target plan.content d (commitWrite plan d) := by
  obtain ⟨removable, still⟩ :=
    beforeRemoval_of_kept (P := fun before => before.Removable (shadowOf plan.target)) clear start
      fun content before steady removable => by
        refine (removable_congr ?_ ?_).mpr removable
        · exact (effect_of_clear steady).node_ne apart.targetShadow.symm apart.tmpShadow.symm
        · exact occupied_writeFileAtomic content before apart.targetOutside apart.tmpOutside
  refine not_frameKept_of_lost apart.targetShadow.symm ?_
  rw [commitWrite_of_removes removes,
    node_remove_of_removable removable (still _) apart.shadowProper, Function.update_self]
  exact there.symm

/-- Behind a zero byte a write leaves a file where there was one. -/
theorem file_of_zero {path previous : Bytes} (zero : (0 : UInt8) ∈ path) (clear : Clear d)
    (found : d.entry path = some (.file previous)) (content : Bytes) :
    ∃ now, (writeFileAtomic path content d).2.entry path = some (.file now) := by
  by_cases opens : d.Opens (tmpOf path)
  · have creatable : d.canCreate path = true := (canCreate_beside zero _).symm.trans opens.1
    have notDir : d.node (.of path) ≠ some .dir := by
      rw [← entry_of_canCreate creatable, found]
      simp
    have written : (writeFileAtomic path content d).2.node (.of path) = some (.file content) :=
      (node_of_clear clear opens creatable notDir).2
    refine ⟨content, ?_⟩
    rw [entry_of_canCreate ((canCreate_congr (effect_of_clear clear).dirs).trans creatable),
      written]
  · rw [writeFileAtomic_of_closed opens]
    exact ⟨previous, found⟩

/-- Behind a zero byte the target itself is removed in place of the shadow. -/
theorem not_frameKept_of_zero (removes : Removes plan d) (zero : (0 : UInt8) ∈ plan.target)
    (still : Clear (beforeRemoval plan d)) {now : Bytes}
    (file : (beforeRemoval plan d).entry plan.target = some (.file now))
    (expected : d.node (.of plan.target) ≠ none ∨ (commitWrite plan d).1.status = .ok) :
    ¬FrameKept plan.target plan.content d (commitWrite plan d) := by
  have found : (beforeRemoval plan d).entry (shadowOf plan.target) = some (.file now) :=
    (entry_beside zero _).trans file
  have gone : (commitWrite plan d).2.node (.of plan.target) = none := by
    rw [commitWrite_of_removes removes, ← fileId_beside zero (str ".opencode_shadow"),
      node_remove_of_removable (removable_of_file found) (still _)
        (Disk.node_of_entry _ found).1, Function.update_self]
  intro kept
  by_cases ok : (commitWrite plan d).1.status = .ok
  · rw [kept.written ok, Function.update_self] at gone
    cases gone
  · rw [kept.untouched ok] at gone
    exact expected.elim (fun there => there gone) ok

/-! ### What lies under the temporary names -/

/-- What lies under the temporary name of the target is lost. -/
theorem not_frameKept_of_tmp (apart : Apart plan.target) (clear : Clear (keepShadow plan d).2)
    (opens : (keepShadow plan d).2.Opens (tmpOf plan.target))
    (there : d.node (.of (tmpOf plan.target)) ≠ none) :
    ¬FrameKept plan.target plan.content d (commitWrite plan d) := by
  have written : (writeFileAtomic plan.target plan.content (keepShadow plan d).2).2.node _ = none :=
    node_tmp_of_clear clear opens apart.targetTmp
  refine not_frameKept_of_lost apart.targetTmp.symm ?_
  rw [node_commitWrite_of_ne apart.tmpShadow written fun previous _ =>
    (effect_of_clear (fault_writeFileAtomic_of_clear clear)).node_tmp apart.targetTmp written]
  exact there.symm

/-- What keeping the shadow has changed stays so. -/
theorem not_frameKept_of_kept {id : FileId} (clear : Clear (keepShadow plan d).2)
    (target : id ≠ .of plan.target) (tmp : id ≠ .of (tmpOf plan.target))
    (shadow : id ≠ .of (shadowOf plan.target))
    (changed : (keepShadow plan d).2.node id ≠ d.node id) :
    ¬FrameKept plan.target plan.content d (commitWrite plan d) := by
  have written : (writeFileAtomic plan.target plan.content (keepShadow plan d).2).2.node id = _ :=
    (effect_of_clear clear).node_ne target tmp
  refine not_frameKept_of_lost target ?_
  rw [node_commitWrite_of_ne shadow written fun previous _ =>
    ((effect_of_clear (fault_writeFileAtomic_of_clear clear)).node_ne target tmp).trans written]
  exact changed

/-! ### The three kinds of targets -/

theorem node_of_removable {path : Bytes} (removable : d.Removable path) :
    d.node (.of path) ≠ none := by
  intro nothing
  have missing : d.entry path = none := by
    rw [entry, nothing]
    split <;> rfl
  rw [Removable, missing] at removable
  exact removable

/-- Where there is nothing. -/
theorem not_frameKept_of_new (missing : d.entry plan.target = none) (isNew : plan.exists_ = false)
    (clear : Clear d) (unclean : ¬CleanNames plan.target d) :
    ¬FrameKept plan.target plan.content d (commitWrite plan d) := by
  have kept : keepShadow plan d = (none, d) := by
    rw [keepShadow, if_neg (by simp [isNew])]
  have clearKept : Clear (keepShadow plan d).2 := by
    rw [kept]
    exact clear
  rw [CleanNames, missing] at unclean
  by_cases free : Free d (tmpOf plan.target)
  · obtain ⟨opens, creatable, flawed⟩ : d.Opens (tmpOf plan.target) ∧
        d.canCreate plan.target = true ∧
          ((0 : UInt8) ∈ plan.target ∨ d.Removable (shadowOf plan.target)) := by
      by_contra none
      refine unclean ⟨free, fun opens creatable => ⟨fun zero => ?_, fun removable => ?_⟩⟩
      · exact none ⟨opens, creatable, .inl zero⟩
      · exact none ⟨opens, creatable, .inr removable⟩
    have notDir : d.node (.of plan.target) ≠ some .dir := by
      rw [← entry_of_canCreate creatable, missing]
      simp
    obtain ⟨ok, node⟩ : (writeFileAtomic plan.target plan.content d).1 = .ok () ∧
        (writeFileAtomic plan.target plan.content d).2.node (.of plan.target) =
          some (.file plan.content) := node_of_clear clear opens creatable notDir
    have dirs : ∀ id, (writeFileAtomic plan.target plan.content d).2.node id = some .dir ↔
        d.node id = some .dir := (effect_of_clear clear).dirs
    have removes : Removes plan d := .inr (by rw [kept]; exact ok)
    by_cases zero : (0 : UInt8) ∈ plan.target
    · have still : Clear (beforeRemoval plan d) :=
        (beforeRemoval_of_kept (P := fun _ => True) clearKept trivial fun _ _ _ _ => trivial).2
      have file : (beforeRemoval plan d).entry plan.target = some (.file plan.content) := by
        unfold beforeRemoval
        rw [kept]
        generalize writeFileAtomic plan.target plan.content d = outcome at ok node dirs ⊢
        obtain ⟨result, after⟩ := outcome
        obtain rfl : result = .ok () := ok
        dsimp only
        rw [entry_of_canCreate ((canCreate_congr dirs).trans creatable)]
        exact node
      refine not_frameKept_of_zero removes zero still file (.inr ?_)
      unfold commitWrite
      rw [kept]
      dsimp only
      generalize writeFileAtomic plan.target plan.content d = outcome at ok ⊢
      obtain ⟨result, after⟩ := outcome
      obtain rfl : result = .ok () := ok
      rfl
    · have removable := flawed.resolve_left zero
      refine not_frameKept_of_shadow removes (apart_of_clean zero) clearKept ?_
        (node_of_removable removable)
      rw [kept]
      exact removable
  · obtain ⟨opens, there, node⟩ := node_of_not_free free
    have apart : Apart plan.target := apart_of_clean fun zero =>
      there ((entry_beside zero _).trans missing)
    refine not_frameKept_of_tmp apart clearKept ?_ node
    rw [kept]
    exact opens

/-- The temporary name can still be written after the shadow was kept. -/
theorem opens_tmp_of_shadow {previous : Bytes} (clear : Clear d) (apart : Apart plan.target)
    (opens : d.Opens (tmpOf plan.target)) :
    (writeFileAtomic (shadowOf plan.target) previous d.tick).2.Opens (tmpOf plan.target) := by
  have effect : AtomicEffect (shadowOf plan.target) previous d.tick _ := effect_of_clear clear
  refine ⟨(canCreate_congr effect.dirs).trans opens.1, ?_⟩
  rw [entry_congr (effect.node_ne apart.tmpShadow apart.tmpShadowTmp)]
  exact opens.2

/-- What can be removed under the name of the shadow still can after the shadow was kept. -/
theorem removable_shadow {previous : Bytes} (clear : Clear d) (apart : Apart plan.target)
    (removable : d.Removable (shadowOf plan.target)) :
    (writeFileAtomic (shadowOf plan.target) previous d.tick).2.Removable
      (shadowOf plan.target) := by
  have clearTick : Clear d.tick := clear
  have effect : AtomicEffect (shadowOf plan.target) previous d.tick _ := effect_of_clear clearTick
  have occupants := occupied_writeFileAtomic previous d.tick apart.shadowOutside
    apart.shadowTmpOutside
  have dirs := effect.dirs
  generalize writeFileAtomic (shadowOf plan.target) previous d.tick = outcome
    at effect occupants dirs ⊢
  cases effect with
  | nothing same => exact (removable_congr (congrFun same _) occupants).mpr removable
  | cleaned opens node =>
      refine (removable_congr ?_ occupants).mpr removable
      rw [node, Function.update_of_ne apart.shadowShadowTmp]
  | renamed opens creatable notDir node =>
      refine @removable_of_file _ _ previous ?_
      rw [entry_of_canCreate ((canCreate_congr dirs).trans creatable), node, Function.update_self]

/-- Where there is a file. -/
theorem not_frameKept_of_file {previous : Bytes}
    (found : d.entry plan.target = some (.file previous)) (old : plan.exists_ = true)
    (clear : Clear d) (unclean : ¬CleanNames plan.target d) :
    ¬FrameKept plan.target plan.content d (commitWrite plan d) := by
  have kept : keepShadow plan d =
      (some previous, (writeFileAtomic (shadowOf plan.target) previous d.tick).2) := by
    rw [keepShadow, if_pos old, readWholeFile_of_file found (clear _)]
  have clearTick : Clear d.tick := clear
  have clearKept : Clear (keepShadow plan d).2 := by
    rw [kept]
    exact fault_writeFileAtomic_of_clear clearTick
  have removes : Removes plan d := .inl (by rw [kept]; simp)
  rw [CleanNames, found] at unclean
  by_cases removable : d.Removable (shadowOf plan.target)
  · by_cases zero : (0 : UInt8) ∈ plan.target
    · obtain ⟨⟨now, file⟩, still⟩ := beforeRemoval_of_kept
        (P := fun before => ∃ now, before.entry plan.target = some (.file now)) clearKept
        (by
          have zeroShadow : (0 : UInt8) ∈ shadowOf plan.target := List.mem_append_left _ zero
          have shadow : d.tick.entry (shadowOf plan.target) = some (.file previous) :=
            (entry_beside zero _).trans found
          obtain ⟨now, written⟩ := file_of_zero zeroShadow clearTick shadow previous
          rw [kept]
          exact ⟨now, (entry_beside zero _).symm.trans written⟩)
        fun content before steady held =>
            held.elim fun _ file => file_of_zero zero steady file content
      refine not_frameKept_of_zero removes zero still file (.inl ?_)
      rw [(d.node_of_entry found).2]
      simp
    · have apart := apart_of_clean zero
      refine not_frameKept_of_shadow removes apart clearKept ?_ (node_of_removable removable)
      rw [kept]
      exact removable_shadow clear apart removable
  · have apart := apart_of_clean (clean_of_fixed found removable)
    by_cases free : Free d (tmpOf plan.target)
    · by_cases freeShadow : Free d (tmpOf (shadowOf plan.target))
      · exact absurd ⟨free, freeShadow, removable⟩ unclean
      · obtain ⟨opens, -, node⟩ := node_of_not_free freeShadow
        refine not_frameKept_of_kept clearKept apart.targetShadowTmp.symm apart.tmpShadowTmp.symm
          apart.shadowShadowTmp.symm ?_
        rw [kept, node_tmp_of_clear clearTick opens apart.shadowShadowTmp]
        exact node.symm
    · obtain ⟨opens, -, node⟩ := node_of_not_free free
      refine not_frameKept_of_tmp apart clearKept ?_ node
      rw [kept]
      exact opens_tmp_of_shadow clear apart opens

theorem node_of_entry_dir {path : Bytes} (found : d.entry path = some .dir) :
    d.node (.of path) = some .dir := by
  unfold entry at found
  split at found
  · cases found
  · split at found
    · split at found <;> cases found
    · exact found

/-- Where there is a directory. -/
theorem not_frameKept_of_dir (found : d.entry plan.target = some .dir) (old : plan.exists_ = true)
    (clear : Clear d) (unclean : ¬CleanNames plan.target d) :
    ¬FrameKept plan.target plan.content d (commitWrite plan d) := by
  obtain ⟨failure, unread⟩ := readWholeFile_of_dir found
  have kept : keepShadow plan d = (none, (writeFileAtomic (shadowOf plan.target) [] d.tick).2) := by
    rw [keepShadow, if_pos old, unread]
  have clearTick : Clear d.tick := clear
  have clearKept : Clear (keepShadow plan d).2 := by
    rw [kept]
    exact fault_writeFileAtomic_of_clear clearTick
  have clean (ending : Bytes) (opens : d.Opens (plan.target ++ ending)) :
      (0 : UInt8) ∉ plan.target := fun zero =>
    opens.2 ((entry_beside zero ending).trans found)
  rw [CleanNames, found] at unclean
  by_cases free : Free d (tmpOf plan.target)
  · by_cases freeShadow : Free d (tmpOf (shadowOf plan.target))
    · obtain ⟨opensTmp, opens, other⟩ : d.Opens (tmpOf (shadowOf plan.target)) ∧
          d.Opens (shadowOf plan.target) ∧
            d.entry (shadowOf plan.target) ≠ some (.file []) := by
        by_contra none
        refine unclean ⟨free, freeShadow, fun opensTmp opens => ?_⟩
        by_contra other
        exact none ⟨opensTmp, opens, other⟩
      have apart := apart_of_clean (clean _ opens)
      have shadow : (writeFileAtomic (shadowOf plan.target) [] d.tick).2.node
          (.of (shadowOf plan.target)) = some (.file []) :=
        (node_of_clear clearTick opensTmp opens.1 opens.node_ne_dir).2
      have dirs : ∀ id, (writeFileAtomic (shadowOf plan.target) [] d.tick).2.node id = some .dir ↔
          d.node id = some .dir :=
        (show AtomicEffect (shadowOf plan.target) [] d.tick _ from effect_of_clear clearTick).dirs
      refine not_frameKept_of_lost apart.targetShadow.symm ?_
      rw [entry_of_canCreate opens.1] at other
      have target := (dirs (.of plan.target)).mpr (node_of_entry_dir found)
      rw [kept] at clearKept
      have effect : AtomicEffect plan.target plan.content _ _ := effect_of_clear clearKept
      unfold commitWrite
      rw [kept]
      dsimp only at effect ⊢
      generalize (writeFileAtomic (shadowOf plan.target) [] d.tick).2 = before
        at shadow target effect ⊢
      generalize writeFileAtomic plan.target plan.content before = outcome at effect ⊢
      cases effect with
      | nothing same =>
          rw [same, shadow]
          exact other.symm
      | cleaned _ node =>
          rw [node, Function.update_of_ne apart.tmpShadow.symm, shadow]
          exact other.symm
      | renamed _ _ notDir _ => exact absurd target notDir
    · obtain ⟨opens, -, node⟩ := node_of_not_free freeShadow
      rw [tmpOf, List.append_assoc] at opens
      have apart := apart_of_clean (clean _ opens)
      rw [← List.append_assoc] at opens
      refine not_frameKept_of_kept clearKept apart.targetShadowTmp.symm apart.tmpShadowTmp.symm
        apart.shadowShadowTmp.symm ?_
      rw [kept, node_tmp_of_clear clearTick opens apart.shadowShadowTmp]
      exact node.symm
  · obtain ⟨opens, -, node⟩ := node_of_not_free free
    have apart := apart_of_clean (clean _ opens)
    refine not_frameKept_of_tmp apart clearKept ?_ node
    rw [kept]
    exact opens_tmp_of_shadow clear apart opens

end Commit

/-! ## The frame of the tool -/

/-- A run keeps the frame: a success puts the content of the call under its target and changes
nothing else, and a failure changes nothing. -/
structure KeepsFrame (base argsJson : Bytes) (d : Disk) (outcome : ToolResult × Disk) :
    Prop where
  written : outcome.1.status = .ok → ∃ plan, (planWrite base argsJson d).1 = .ok plan ∧
    outcome.2.node = Function.update d.node (.of plan.target) (some (.file plan.content))
  untouched : outcome.1.status ≠ .ok → outcome.2.node = d.node

/-- A run in which creating, writing and renaming may be refused, but no look at a file and no
removal. -/
def RunSpares (base argsJson : Bytes) (d : Disk) : Prop :=
  ∀ plan after, planWrite base argsJson d = (.ok plan, after) →
    d.fate = .none ∧ CommitSpares plan after

section Run

variable {base argsJson : Bytes} {d : Disk}

/-- A refusal has changed nothing. -/
theorem node_of_refusal {refusal : ToolResult} {after : Disk}
    (refused : planWrite base argsJson d = (.error refusal, after)) : after.node = d.node := by
  unfold planWrite at refused
  dsimp only [Disk.stat] at refused
  repeat' split at refused
  all_goals cases refused
  all_goals rfl

/-- A plan is made with one look at the target. -/
theorem planWrite_of_ok {plan : WritePlan} {after : Disk}
    (planned : planWrite base argsJson d = (.ok plan, after)) :
    after = d.tick ∧ plan.exists_ = ((d.entry plan.target).isSome && d.fate = .none) := by
  unfold planWrite at planned
  dsimp only [Disk.stat] at planned
  repeat' split at planned
  all_goals cases planned
  exact ⟨rfl, rfl⟩

/-- The plan depends on the tree alone when the look is not refused. -/
theorem planWrite_congr {d' : Disk} (same : d'.nodes = d.nodes) (steady : d.fate = .none)
    (steady' : d'.fate = .none) : (planWrite base argsJson d').1 = (planWrite base argsJson d).1 := by
  have entries (path : Bytes) : d'.entry path = d.entry path :=
    entry_congr (by rw [node, node, same])
  unfold planWrite
  dsimp only [Disk.stat]
  simp only [entries, steady, steady']
  cases readArgs argsJson with
  | error failure => rfl
  | ok args =>
      dsimp only
      cases args.findString (str "path") with
      | none => rfl
      | some path =>
          cases args.findString (str "content") with
          | none => rfl
          | some content =>
              dsimp only
              cases resolveInSandbox base path with
              | none => rfl
              | some target =>
                  dsimp only
                  split
                  · rfl
                  · split <;> rfl

theorem cleanNames_congr {target : Bytes} {d' : Disk} (same : d'.nodes = d.nodes) :
    CleanNames target d' ↔ CleanNames target d := by
  obtain ⟨nodes, fault, calls⟩ := d
  obtain ⟨nodes', fault', calls'⟩ := d'
  obtain rfl : nodes' = nodes := same
  exact Iff.rfl

/-- The frame of a commit, by what is under the target. -/
theorem frameKept_of_clean {plan : WritePlan} (looked : plan.exists_ = (d.entry plan.target).isSome)
    (clean : CleanNames plan.target d) (spares : CommitSpares plan d) :
    FrameKept plan.target plan.content d (commitWrite plan d) := by
  cases found : d.entry plan.target with
  | none => exact frameKept_of_new found (by rw [looked, found]; rfl) clean spares
  | some n =>
      have old : plan.exists_ = true := by rw [looked, found]; rfl
      cases n with
      | file previous => exact frameKept_of_file found old clean spares
      | dir => exact frameKept_of_dir found old clean spares

theorem not_frameKept_of_unclean {plan : WritePlan}
    (looked : plan.exists_ = (d.entry plan.target).isSome) (clear : Clear d)
    (unclean : ¬CleanNames plan.target d) :
    ¬FrameKept plan.target plan.content d (commitWrite plan d) := by
  cases found : d.entry plan.target with
  | none => exact not_frameKept_of_new found (by rw [looked, found]; rfl) clear unclean
  | some n =>
      have old : plan.exists_ = true := by rw [looked, found]; rfl
      cases n with
      | file previous => exact not_frameKept_of_file found old clear unclean
      | dir => exact not_frameKept_of_dir found old clear unclean

/-- With a plan, the frame of the run is that of the commit. -/
theorem keepsFrame_iff_frameKept {plan : WritePlan} {after : Disk} {outcome : ToolResult × Disk}
    (planned : planWrite base argsJson d = (.ok plan, after)) :
    KeepsFrame base argsJson d outcome ↔ FrameKept plan.target plan.content after outcome := by
  obtain ⟨rfl, -⟩ := planWrite_of_ok planned
  constructor
  · intro keeps
    refine ⟨fun ok => ?_, keeps.untouched⟩
    obtain ⟨other, same, node⟩ := keeps.written ok
    rw [planned] at same
    cases same
    exact node
  · exact fun kept => ⟨fun ok => ⟨plan, by rw [planned], kept.written ok⟩, kept.untouched⟩

end Run

/-- A workspace with a file under the name of the temporary one. -/
def crowdedWorkspace : Disk where
  nodes := [(.of (str "/w"), .dir), (.of (str "/w/a.txt.opencode_tmp"), .file (str "keep"))]
  fault _ := .none
  calls := 0

def writeNote : Invocation where
  toolName := fileWriteId
  argsJson := str "\x7b\"path\":\"a.txt\",\"content\":\"x\"\x7d"

end Opencodepp.Tools
