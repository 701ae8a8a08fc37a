import Opencodepp.Msg.Tokens
import Opencodepp.Tools.Sandbox
import Opencodepp.Tools.Tool

/-!
# The file.write tool

The tool reads its arguments, resolves the path inside its base, and then writes the
content through a temporary file with a shadow copy for rollback.  Its run is split
at the point where the target and the content are settled: `planWrite` is everything
that may refuse before anything is written, `commitWrite` is what touches the disk.
-/

set_option autoImplicit false

namespace Opencodepp.Tools

open Opencodepp.Core
open Opencodepp.Library
open Opencodepp.Msg
open Opencodepp.Util

/-- The arguments object; an empty text stands for no arguments. -/
def readArgs (argsJson : Bytes) : Except Failure JVal :=
  if argsJson = [] then .ok (.object []) else parseJson argsJson

def ioError (what : String) : Failure := ⟨⟨.eInternal, UInt32.ofNat (str what).length⟩, rfl⟩

/-- Read a file to its end. -/
def readWholeFile (path : Bytes) (d : Disk) : Except Failure Bytes × Disk :=
  match d.read path with
  | (.unopened, d) => (.error (.of .eMissingCfg), d)
  | (.failed _, d) => (.error (ioError "read"), d)
  | (.complete content, d) => (.ok content, d)

/-- Write a file through a temporary one beside it. -/
def writeFileAtomic (path content : Bytes) (d : Disk) : Except Failure Unit × Disk :=
  let tmp := path ++ str ".opencode_tmp"
  match d.write tmp content with
  | (.unopened, d) => (.error (ioError "create"), d)
  | (.failed, d) => (.error (ioError "write"), d.remove tmp)
  | (.complete, d) =>
      match d.rename tmp path with
      | (true, d) => (.ok (), d)
      | (false, d) => (.error (ioError "rename"), d.remove tmp)

/-- An error or success of a tool, with the estimate of its text. -/
def textResult (toolId : Bytes) (status : ToolStatus) (content : Bytes) : ToolResult :=
  ⟨toolId, status, content, status = .error, UInt32.ofNat (estimateTokens content)⟩

/-- A write the tool has decided to make. -/
structure WritePlan where
  path : Bytes
  content : Bytes
  target : Bytes
  exists_ : Bool
  deriving Repr, DecidableEq

def fileWriteId : Bytes := str "file.write"

def writeError (message : Bytes) : ToolResult := textResult fileWriteId .error message

/-- Everything the tool checks before it writes. -/
def planWrite (base argsJson : Bytes) (d : Disk) : Except ToolResult WritePlan × Disk :=
  match readArgs argsJson with
  | .error _ => (.error (writeError (str "bad args")), d)
  | .ok args =>
      match args.findString (str "path"), args.findString (str "content") with
      | none, _ => (.error (writeError (str "missing required arg: path")), d)
      | some _, none => (.error (writeError (str "missing required arg: content")), d)
      | some path, some content =>
          let create := (args.findBool (str "create")).getD true
          let overwriteGuard := (args.findBool (str "overwrite_guard")).getD true
          match resolveInSandbox base path with
          | none => (.error (writeError (str "path escapes the workspace: " ++ path)), d)
          | some abs =>
              let (found, d) := d.stat abs
              if found && overwriteGuard then
                (.error (writeError (str
                  "refusing to overwrite existing file (set overwrite_guard=false): " ++ path)), d)
              else if !found && !create then
                (.error (writeError (str
                  "file does not exist (create=true to create): " ++ path)), d)
              else (.ok ⟨path, content, abs, found⟩, d)

/-- The shadow copy kept for rollback: the previous content and whether it was read. -/
def keepShadow (plan : WritePlan) (d : Disk) : Option Bytes × Disk :=
  if plan.exists_ then
    match readWholeFile plan.target d with
    | (.ok previous, d) =>
        (some previous, (writeFileAtomic (plan.target ++ str ".opencode_shadow") previous d).2)
    | (.error _, d) =>
        (none, (writeFileAtomic (plan.target ++ str ".opencode_shadow") [] d).2)
  else (none, d)

/-- Write the content, and roll back when the write fails. -/
def commitWrite (plan : WritePlan) (d : Disk) : ToolResult × Disk :=
  let shadow := plan.target ++ str ".opencode_shadow"
  let (previous, d) := keepShadow plan d
  match writeFileAtomic plan.target plan.content d with
  | (.error c, d) =>
      let d :=
        match previous with
        | some previous => ((writeFileAtomic plan.target previous d).2).remove shadow
        | none => d
      (writeError (str "write failed: " ++ str c.ec.message), d)
  | (.ok _, d) =>
      (textResult fileWriteId .ok (str "wrote " ++ decimal plan.content.length ++
        str " bytes to " ++ plan.path), d.remove shadow)

def strParam (name description : String) : ParamSpec :=
  ⟨str name, .string, str description, true, [], []⟩

def boolParam (name description : String) : ParamSpec :=
  ⟨str name, .boolean, str description, false, [], []⟩

def fileWriteSpec : ToolSpec :=
  makeSpec fileWriteId
    (str ("Write a file. By default only creates NEW files (no silent overwrite); pass " ++
      "overwrite_guard=false to replace existing content. A shadow copy is kept so a failed " ++
      "write rolls back."))
    [strParam "path" "path relative to the workspace", strParam "content" "full new content",
      boolParam "create" "false = require the file to exist already",
      boolParam "overwrite_guard" "true = refuse to overwrite"]
    false .write

/-- The file.write tool over a base directory. -/
def fileWriteTool (base : Bytes) : Tool where
  spec := fileWriteSpec
  run _ inv _ d :=
    match planWrite base inv.argsJson d with
    | (.error refusal, d) => (refusal, d)
    | (.ok plan, d) => commitWrite plan d

/-! ## What the tool writes -/

/-- A plan takes its path and content from the arguments. -/
theorem planWrite_ok {base argsJson : Bytes} {d : Disk} {plan : WritePlan}
    (planned : (planWrite base argsJson d).1 = .ok plan) :
    ∃ args, parseJson argsJson = .ok args ∧ args.findString (str "path") = some plan.path ∧
      args.findString (str "content") = some plan.content ∧
      resolveInSandbox base plan.path = some plan.target := by
  unfold planWrite at planned
  split at planned
  · cases planned
  · next args read =>
      have parsed : parseJson argsJson = .ok args ∨ args = .object [] := by
        unfold readArgs at read
        split at read
        · cases read
          exact .inr rfl
        · exact .inl read
      split at planned
      · cases planned
      · cases planned
      · next path content foundPath foundContent =>
          rcases parsed with parsed | empty
          · dsimp only at planned
            split at planned
            · cases planned
            · next abs resolved =>
                split at planned
                · cases planned
                · split at planned
                  · cases planned
                  · cases planned
                    exact ⟨args, parsed, foundPath, foundContent, resolved⟩
          · rw [empty] at foundPath
            cases foundPath

theorem status_of_refusal {base argsJson : Bytes} {d : Disk} {refusal : ToolResult}
    (refused : (planWrite base argsJson d).1 = .error refusal) : refusal.status = .error := by
  have reported (message : Bytes) : (writeError message).status = .error := rfl
  unfold planWrite at refused
  split at refused
  · cases refused
    exact reported _
  · split at refused
    · cases refused
      exact reported _
    · cases refused
      exact reported _
    · dsimp only at refused
      split at refused
      · cases refused
        exact reported _
      · split at refused
        · cases refused
          exact reported _
        · split at refused
          · cases refused
            exact reported _
          · cases refused

/-- An atomic write that succeeds has put the content under the path. -/
theorem node_writeFileAtomic {path content : Bytes} {d d' : Disk}
    (wrote : writeFileAtomic path content d = (.ok (), d')) :
    Disk.asksDirectory path = false ∧ d'.node (.of path) = some (.file content) := by
  unfold writeFileAtomic at wrote
  dsimp only at wrote
  split at wrote
  · cases wrote
  · cases wrote
  · next written complete =>
      split at wrote
      · next renamed done =>
          cases wrote
          obtain ⟨names, moved, source, target⟩ := written.node_rename done
          have same : some (Node.file moved) = some (Node.file content) :=
            source.symm.trans (d.node_write_complete complete)
          exact ⟨names, target.trans same⟩
      · cases wrote

/-- **A successful write leaves the content at the target**, as long as the C string of the
target is the whole of it. -/
theorem node_commitWrite {plan : WritePlan} {d d' : Disk} {result : ToolResult}
    (committed : commitWrite plan d = (result, d')) (ok : result.status = .ok)
    (clean : (0 : UInt8) ∉ plan.target) :
    d'.node (.of plan.target) = some (.file plan.content) := by
  unfold commitWrite at committed
  dsimp only at committed
  split at committed
  · cases committed
    cases ok
  · next written wrote =>
      obtain ⟨names, stored⟩ := node_writeFileAtomic wrote
      cases committed
      rw [Disk.node_remove_other, stored]
      exact fileId_append_ne clean (by decide) (by decide) (by decide) names

end Opencodepp.Tools
