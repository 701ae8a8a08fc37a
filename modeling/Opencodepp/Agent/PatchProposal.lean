import Mathlib.Data.List.Basic
import Opencodepp.Agent.Safety
import Opencodepp.Verify.Gate

/-!
# The proposal of a patch

The diff stage compares a patch with the contents before and after it, and the proposal of a
patch is meant to carry these.  It carries neither: both are empty, whatever the file holds.
The verdict of the stage is therefore about the patch of an empty text, and agrees with the
tool only where that is what the tool does as well (`gate_agrees_with_patch_iff`).
-/

set_option autoImplicit false

namespace Opencodepp.Agent

open Opencodepp.Core
open Opencodepp.Library
open Opencodepp.Provider
open Opencodepp.Tools

/-! ## The two readings of a call -/

/-- A proposal of file.patch takes its patch from the arguments, and nothing from the disk. -/
theorem buildProposal_patch {root : Bytes} {call : ToolCallDone} {d : Disk}
    {prop : Verify.EditProposal} (built : (buildProposal root call d).1 = .ok prop)
    (name : call.name = filePatchId) :
    ∃ args, Util.parseJson call.inputJson = .ok args ∧
      args.findString (str "path") = some prop.path ∧
      args.findString (str "patch") = some prop.patchText ∧ CleanPath prop.path ∧
      prop.beforeContent = [] ∧ prop.afterContent = [] := by
  unfold buildProposal at built
  split at built
  · cases built
  · next args parsed =>
      split at built
      · cases built
      · next path checked =>
          have isPatch : call.name = str "file.patch" := name
          have notWrite : call.name ≠ str "file.write" := by
            rw [isPatch]
            decide
          rw [if_neg notWrite, if_pos isPatch] at built
          obtain ⟨foundPath, clean⟩ := proposalPath_ok checked
          split at built
          · cases built
          · next patch foundPatch =>
              cases built
              exact ⟨args, parsed, foundPath, foundPatch, clean, rfl, rfl⟩

/-- The tool accepts the arguments of every call with a proposal, and reads the same patch. -/
theorem planPatch_of_built {root : Bytes} {call : ToolCallDone} {d : Disk}
    {prop : Verify.EditProposal} (built : (buildProposal root call d).1 = .ok prop)
    (name : call.name = filePatchId) :
    ∃ plan, planPatch root call.inputJson = .ok plan ∧ plan.text = prop.patchText ∧
      resolveInSandbox root prop.path = some plan.target := by
  obtain ⟨args, parsed, foundPath, foundPatch, clean, -, -⟩ := buildProposal_patch built name
  obtain ⟨abs, resolved, -⟩ :=
    fileId_resolveInSandbox root clean.nonempty clean.isRelative clean.noParent
  have given : call.inputJson ≠ [] := by
    intro missing
    have nothing : (Util.parseJson []).isOk = false := by decide
    rw [missing] at parsed
    rw [parsed] at nothing
    cases nothing
  have read : readArgs call.inputJson = .ok args := by
    unfold readArgs
    rw [if_neg given, parsed]
  refine ⟨⟨abs, prop.patchText, (args.findBool (str "reverse")).getD false⟩, ?_, rfl, resolved⟩
  unfold planPatch
  rw [read]
  simp only [foundPath, foundPatch, resolved]

/-! ## Agreement -/

/-- The proposal shows the file before and after the patch, and the diff stage lets it pass
exactly when the tool would make it. -/
structure AgreesWithPatch (plan : PatchPlan) (d : Disk) (prop : Verify.EditProposal) : Prop where
  before : prop.beforeContent = contentAt d plan.target
  after : ∀ next, plan.patched (contentAt d plan.target) = .ok next → prop.afterContent = next
  verdict : Verify.checkDiff prop = [] ↔
    ∃ patchText report, plan.directed = .ok patchText ∧
      (Patch.applyFile plan.target patchText d).1 = .ok report

/-- The patch of an empty file leaves it empty, and the tool makes it exactly when the text is a
patch of the empty text to itself. -/
structure KeepsEmpty (plan : PatchPlan) (d : Disk) : Prop where
  empty : contentAt d plan.target = []
  keeps : ∀ next, plan.patched [] = .ok next → next = []
  fits : (plan.text ≠ [] ∧ Patch.patched plan.text [] = .ok []) ↔
    (readWholeFile plan.target d).1 = .ok [] ∧ plan.patched [] = .ok [] ∧
      (writeFileAtomic plan.target [] (readWholeFile plan.target d).2).1 = .ok ()

/-- The diff stage on a proposal with empty contents. -/
theorem checkDiff_of_empty {prop : Verify.EditProposal} (before : prop.beforeContent = [])
    (after : prop.afterContent = []) :
    Verify.checkDiff prop = [] ↔
      prop.patchText ≠ [] ∧ Patch.patched prop.patchText [] = .ok [] := by
  have minimal : Verify.checkMinimal prop = [] := by
    unfold Verify.checkMinimal
    simp [before]
  unfold Verify.checkDiff Patch.patched
  rw [before, after, minimal]
  by_cases given : prop.patchText = []
  · simp [given]
  · cases parsed : Patch.parse prop.patchText with
    | error e => simp [given]
    | ok hunks =>
        cases applied : Patch.apply hunks [] with
        | error e => simp [given, applied]
        | ok next => by_cases kept : next = [] <;> simp [given, applied, kept]

/-- The tool on an empty file, for a patch that keeps it so. -/
theorem applies_to_empty_iff {plan : PatchPlan} {d : Disk}
    (empty : contentAt d plan.target = [])
    (keeps : ∀ next, plan.patched [] = .ok next → next = []) :
    (∃ patchText report, plan.directed = .ok patchText ∧
      (Patch.applyFile plan.target patchText d).1 = .ok report) ↔
      (readWholeFile plan.target d).1 = .ok [] ∧ plan.patched [] = .ok [] ∧
        (writeFileAtomic plan.target [] (readWholeFile plan.target d).2).1 = .ok () := by
  constructor
  · rintro ⟨patchText, report, directed, applied⟩
    obtain ⟨content, next, read, patched, wrote⟩ := Patch.applyFile_ok_iff.mp ⟨report, applied⟩
    have held : content = [] := by
      rw [← contentAt_of_readWholeFile (Prod.ext read rfl)]
      exact empty
    rw [held] at read patched
    have result : plan.patched [] = .ok next := by
      unfold PatchPlan.patched
      rw [directed]
      exact patched
    have kept : next = [] := keeps next result
    rw [kept] at result wrote
    exact ⟨read, result, wrote⟩
  · rintro ⟨read, result, wrote⟩
    unfold PatchPlan.patched at result
    cases directed : plan.directed with
    | error e => simp [directed] at result
    | ok patchText =>
        rw [directed] at result
        obtain ⟨report, applied⟩ := Patch.applyFile_ok_iff.mpr ⟨[], [], read, result, wrote⟩
        exact ⟨patchText, report, rfl, applied⟩

/-- **The gate agrees with file.patch exactly on empty files that stay empty.** -/
theorem gate_agrees_with_patch_iff {root : Bytes} {call : ToolCallDone} {d : Disk}
    {prop : Verify.EditProposal} (name : call.name = filePatchId)
    (built : (buildProposal root call d).1 = .ok prop) :
    ∃ plan, planPatch root call.inputJson = .ok plan ∧
      (AgreesWithPatch plan d prop ↔ KeepsEmpty plan d) := by
  obtain ⟨plan, planned, text, -⟩ := planPatch_of_built built name
  obtain ⟨-, -, -, -, -, before, after⟩ := buildProposal_patch built name
  refine ⟨plan, planned, ?_, ?_⟩
  · intro agrees
    have empty : contentAt d plan.target = [] := agrees.before.symm.trans before
    have keeps : ∀ next, plan.patched [] = .ok next → next = [] := by
      intro next result
      rw [← empty] at result
      exact (agrees.after next result).symm.trans after
    refine ⟨empty, keeps, ?_⟩
    rw [text, ← checkDiff_of_empty before after, ← applies_to_empty_iff empty keeps]
    exact agrees.verdict
  · intro keepsEmpty
    refine ⟨before.trans keepsEmpty.empty.symm, ?_, ?_⟩
    · intro next result
      rw [keepsEmpty.empty] at result
      exact after.trans (keepsEmpty.keeps next result).symm
    · rw [checkDiff_of_empty before after, ← text,
        applies_to_empty_iff keepsEmpty.empty keepsEmpty.keeps]
      exact keepsEmpty.fits

/-! ## A file of one line -/

/-- A call of file.patch on the file `a`. -/
def patchCall (patch : String) : ToolCallDone :=
  ⟨str "c1", filePatchId, Util.toJson (.object [(str "path", .string (str "a")),
    (str "patch", .string (str patch))])⟩

/-- The proposal of that call. -/
def patchProposal (patch : String) : Verify.EditProposal :=
  ⟨filePatchId, (patchCall patch).inputJson, str "a", [], [], str patch⟩

/-- A workspace with the file `a`. -/
def diskWith (content : String) : Disk :=
  ⟨[(⟨true, [str "w"]⟩, .dir), (⟨true, [str "w", str "a"]⟩, .file (str content))],
    fun _ => .none, 0⟩

theorem gate_agrees_with_patch_empty :
    (buildProposal (str "/w") (patchCall "@@ -1 +1 @@\n") (diskWith "")).1 =
      .ok (patchProposal "@@ -1 +1 @@\n") ∧
    ∃ plan, planPatch (str "/w") (patchCall "@@ -1 +1 @@\n").inputJson = .ok plan ∧
      AgreesWithPatch plan (diskWith "") (patchProposal "@@ -1 +1 @@\n") := by
  have built : (buildProposal (str "/w") (patchCall "@@ -1 +1 @@\n") (diskWith "")).1 =
      .ok (patchProposal "@@ -1 +1 @@\n") := by decide +kernel
  obtain ⟨plan, planned, agrees⟩ := gate_agrees_with_patch_iff rfl built
  have same : planPatch (str "/w") (patchCall "@@ -1 +1 @@\n").inputJson =
      .ok ⟨str "/w/a", str "@@ -1 +1 @@\n", false⟩ := by decide +kernel
  rw [planned] at same
  cases same
  refine ⟨built, _, planned, agrees.mpr ⟨by decide +kernel, ?_, by decide +kernel⟩⟩
  intro next result
  have kept : PatchPlan.patched ⟨str "/w/a", str "@@ -1 +1 @@\n", false⟩ [] = .ok [] := by
    decide +kernel
  rw [kept] at result
  cases result
  rfl

/-- The tool changes the line; the gate finds no such line in the empty text. -/
theorem gate_blocks_patch_that_applies :
    (buildProposal (str "/w") (patchCall "@@ -1 +1 @@\n-x\n+y\n") (diskWith "x\n")).1 =
      .ok (patchProposal "@@ -1 +1 @@\n-x\n+y\n") ∧
    planPatch (str "/w") (patchCall "@@ -1 +1 @@\n-x\n+y\n").inputJson =
      .ok ⟨str "/w/a", str "@@ -1 +1 @@\n-x\n+y\n", false⟩ ∧
    contentAt (diskWith "x\n") (str "/w/a") = str "x\n" ∧
    (Patch.applyFile (str "/w/a") (str "@@ -1 +1 @@\n-x\n+y\n") (diskWith "x\n")).1 =
      .ok (str "applied 1 hunk to /w/a") ∧
    Verify.checkDiff (patchProposal "@@ -1 +1 @@\n-x\n+y\n") =
      [str "patch does not apply cleanly (context mismatch)"] ∧
    ¬ AgreesWithPatch ⟨str "/w/a", str "@@ -1 +1 @@\n-x\n+y\n", false⟩ (diskWith "x\n")
      (patchProposal "@@ -1 +1 @@\n-x\n+y\n") := by
  refine ⟨by decide +kernel, by decide +kernel, by decide +kernel, by decide +kernel,
    by decide +kernel, ?_⟩
  intro agrees
  exact absurd agrees.before (by decide +kernel)

end Opencodepp.Agent
