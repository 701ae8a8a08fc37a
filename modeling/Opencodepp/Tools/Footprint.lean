import Opencodepp.Library.FileChanges
import Opencodepp.Tools.Patch

/-!
# The files that writing tools can touch

A write goes through a temporary file, and an overwrite keeps a shadow copy, which is written
in the same way.  So file.write can change four names and file.patch two of them, all made from
the target that the path of the arguments resolves to (`names_of_fileWrite_changes`,
`names_of_filePatch_changes`).  This holds whatever calls fail on the way, and of names that stand
for one file too.
-/

set_option autoImplicit false

namespace Opencodepp.Tools

open Opencodepp.Core
open Opencodepp.Library
open Opencodepp.Library.Disk
open Opencodepp.Util

/-- The target of a write, its shadow, and the temporary files of both. -/
def namesBeside (target : Bytes) : List FileId :=
  let shadow := target ++ str ".opencode_shadow"
  [.of target, .of (target ++ str ".opencode_tmp"), .of shadow,
    .of (shadow ++ str ".opencode_tmp")]

variable {d : Disk}

theorem node_readWholeFile (path : Bytes) : (readWholeFile path d).2.node = d.node := by
  unfold readWholeFile
  have same : (d.read path).2.node = d.node := rfl
  split <;> next read => rw [read] at same; exact same

theorem sameBut_writeFileAtomic (path content : Bytes) :
    SameBut [.of path, .of (path ++ str ".opencode_tmp")] d (writeFileAtomic path content d).2 := by
  generalize named : path ++ str ".opencode_tmp" = tmp
  have tmp_ : [FileId.of tmp] ⊆ [.of path, .of tmp] := by simp
  have both : [FileId.of tmp, .of path] ⊆ [.of path, .of tmp] := by simp
  have wrote := (sameBut_write (d := d) tmp content).mono tmp_
  unfold writeFileAtomic
  dsimp only
  rw [named]
  split
  · next d₁ unopened =>
      rw [unopened] at wrote
      exact wrote
  · next d₁ failed =>
      rw [failed] at wrote
      exact wrote.trans ((sameBut_remove tmp).mono tmp_)
  · next d₁ complete =>
      rw [complete] at wrote
      have moved := wrote.trans ((sameBut_rename tmp path).mono both)
      split
      · next d₂ renamed =>
          rw [renamed] at moved
          exact moved
      · next d₂ refused =>
          rw [refused] at moved
          exact moved.trans ((sameBut_remove tmp).mono tmp_)

section Commit

variable (plan : WritePlan)

theorem target_namesBeside (target : Bytes) :
    [FileId.of target, .of (target ++ str ".opencode_tmp")] ⊆ namesBeside target := by
  simp [namesBeside]

theorem shadow_namesBeside (target : Bytes) :
    [FileId.of (target ++ str ".opencode_shadow"),
      .of (target ++ str ".opencode_shadow" ++ str ".opencode_tmp")] ⊆ namesBeside target := by
  simp [namesBeside]

theorem sameBut_keepShadow : SameBut (namesBeside plan.target) d (keepShadow plan d).2 := by
  unfold keepShadow
  split
  · have read := node_readWholeFile (d := d) plan.target
    split
    all_goals
      next outcome =>
        rw [outcome] at read
        exact (SameBut.of_node read).trans
          ((sameBut_writeFileAtomic _ _).mono (shadow_namesBeside plan.target))
  · exact .of_node rfl

/-- **A write changes its four names and no others**, also when it is rolled back. -/
theorem sameBut_commitWrite : SameBut (namesBeside plan.target) d (commitWrite plan d).2 := by
  have shadow_ : [FileId.of (plan.target ++ str ".opencode_shadow")] ⊆ namesBeside plan.target := by
    simp [namesBeside]
  have kept := sameBut_keepShadow (d := d) plan
  unfold commitWrite
  generalize keepShadow plan d = shadowed at kept ⊢
  obtain ⟨previous, d₁⟩ := shadowed
  have wrote := kept.trans ((sameBut_writeFileAtomic plan.target plan.content).mono
    (target_namesBeside plan.target))
  dsimp only at wrote ⊢
  split
  · next c d₂ failed =>
      rw [failed] at wrote
      cases previous with
      | none => exact wrote
      | some previous =>
          exact (wrote.trans ((sameBut_writeFileAtomic plan.target previous).mono
            (target_namesBeside plan.target))).trans ((sameBut_remove _).mono shadow_)
  · next d₂ written =>
      rw [written] at wrote
      exact wrote.trans ((sameBut_remove _).mono shadow_)

end Commit

/-! ## Tools -/

/-- A name that a write with these arguments can touch. -/
def Names (base argsJson : Bytes) (id : FileId) : Prop :=
  ∃ args path target, readArgs argsJson = .ok args ∧ args.findString (str "path") = some path ∧
    resolveInSandbox base path = some target ∧ id ∈ namesBeside target

theorem planWrite_target {base argsJson : Bytes} {plan : WritePlan}
    (planned : (planWrite base argsJson d).1 = .ok plan) :
    ∃ args path, readArgs argsJson = .ok args ∧ args.findString (str "path") = some path ∧
      resolveInSandbox base path = some plan.target := by
  unfold planWrite at planned
  split at planned
  · cases planned
  · next args read =>
      split at planned
      · cases planned
      · cases planned
      · next path content foundPath foundContent =>
          dsimp only at planned
          split at planned
          · cases planned
          · next abs resolved =>
              split at planned
              · cases planned
              · split at planned
                · cases planned
                · cases planned
                  exact ⟨args, path, read, foundPath, resolved⟩

theorem node_planWrite (base argsJson : Bytes) : (planWrite base argsJson d).2.node = d.node := by
  unfold planWrite
  split
  · rfl
  · split
    · rfl
    · rfl
    · dsimp only
      split
      · rfl
      · split
        · rfl
        · split <;> rfl

/-- What file.write changes it names. -/
theorem names_of_fileWrite_changes {base : Bytes} {asked : Nat} {inv : Invocation}
    {canceled : Bool} {id : FileId}
    (changed : ((fileWriteTool base).run asked inv canceled d).2.node id ≠ d.node id) :
    Names base inv.argsJson id := by
  have looked := congrFun (node_planWrite (d := d) base inv.argsJson) id
  dsimp only [fileWriteTool] at changed
  split at changed
  · next refusal d₁ refused =>
      rw [refused] at looked
      exact absurd looked changed
  · next plan d₁ planned =>
      rw [planned] at looked
      obtain ⟨args, path, read, found, resolved⟩ := planWrite_target (congrArg Prod.fst planned)
      refine ⟨args, path, plan.target, read, found, resolved, ?_⟩
      by_contra other
      exact changed ((sameBut_commitWrite plan id other).trans looked)

theorem planPatch_target {base argsJson : Bytes} {plan : PatchPlan}
    (planned : planPatch base argsJson = .ok plan) :
    ∃ args path, readArgs argsJson = .ok args ∧ args.findString (str "path") = some path ∧
      resolveInSandbox base path = some plan.target := by
  unfold planPatch at planned
  split at planned
  · cases planned
  · next args read =>
      split at planned
      · cases planned
      · cases planned
      · next path text foundPath foundText =>
          split at planned
          · cases planned
          · next abs resolved =>
              cases planned
              exact ⟨args, path, read, foundPath, resolved⟩

theorem sameBut_applyFile (path patchText : Bytes) :
    SameBut (namesBeside path) d (Patch.applyFile path patchText d).2 := by
  have read := node_readWholeFile (d := d) path
  unfold Patch.applyFile
  split
  · next failed =>
      rw [failed] at read
      exact .of_node read
  · next original d₁ complete =>
      rw [complete] at read
      split
      · exact .of_node read
      · split
        · exact .of_node read
        · next next_ _ =>
            have looked : SameBut (namesBeside path) d d₁ := .of_node read
            have wrote := looked.trans
              ((sameBut_writeFileAtomic path next_).mono (target_namesBeside path))
            split
            all_goals
              next outcome =>
                rw [outcome] at wrote
                exact wrote

/-- What file.patch changes it names. -/
theorem names_of_filePatch_changes {base : Bytes} {asked : Nat} {inv : Invocation}
    {canceled : Bool} {id : FileId}
    (changed : ((filePatchTool base).run asked inv canceled d).2.node id ≠ d.node id) :
    Names base inv.argsJson id := by
  dsimp only [filePatchTool] at changed
  split at changed
  · exact absurd rfl changed
  · next plan planned =>
      obtain ⟨args, path, read, found, resolved⟩ := planPatch_target planned
      refine ⟨args, path, plan.target, read, found, resolved, ?_⟩
      split at changed
      · exact absurd rfl changed
      · next patchText _ =>
          have same := sameBut_applyFile (d := d) plan.target patchText
          by_contra other
          split at changed
          all_goals
            next outcome =>
              rw [outcome] at same
              exact changed (same id other)

end Opencodepp.Tools
