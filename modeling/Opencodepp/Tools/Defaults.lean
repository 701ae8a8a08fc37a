import Opencodepp.Tools.Write

/-!
# The default toolset

The specifications of the built-in tools, family by family, and their registration.  What a
tool other than file.write does when it runs is left open: a `ToolRuns` supplies it by
workspace and tool id.

Registration never fails: the names of the built-in tools are distinct whatever families are
asked for (`registerDefaults_ok`).
-/

set_option autoImplicit false

namespace Opencodepp.Tools

open Opencodepp.Core
open Opencodepp.Library

/-! ## Specifications -/

def intParam (name description : String) (required : Bool) : ParamSpec :=
  ⟨str name, .integer, str description, required, [], []⟩

def optionalStrParam (name description : String) : ParamSpec :=
  ⟨str name, .string, str description, false, [], []⟩

def enumParam (name description : String) (values : List String) : ParamSpec :=
  ⟨str name, .string, str description, false, [], values.map str⟩

/-- A read-only tool. -/
def readSpec (id description : String) (params : List ParamSpec) (category : ToolCategory) :
    ToolSpec :=
  makeSpec (str id) (str description) params true category

def fileReadSpec : ToolSpec :=
  readSpec "file.read" "Read a text file (optionally a byte range)"
    [strParam "path" "path relative to the workspace",
      intParam "start" "start byte offset (0-based)" false,
      intParam "end" "exclusive end byte offset" false,
      intParam "max_bytes" "cap the returned bytes" false] .read

def dirListSpec : ToolSpec :=
  readSpec "dir.list" "List a directory (optionally recursive, glob-filtered)"
    [strParam "path" "directory relative to the workspace",
      boolParam "recurse" "descend into subdirectories",
      strParam "pattern" "glob filter on entry name"] .read

def fileStatSpec : ToolSpec :=
  readSpec "file.stat" "Stat a path: size, mtime, type, permissions"
    [strParam "path" "path relative to the workspace"] .read

def fileSearchSpec : ToolSpec :=
  readSpec "file.search" "Find files under a path by glob or regex; optional gitignore"
    [strParam "pattern" "glob or regex to match against relative paths",
      strParam "path" "search root relative to the workspace",
      boolParam "regex" "treat pattern as a regex",
      boolParam "gitignore" "honor .gitignore and skip .git"] .read

def workspaceInfoSpec : ToolSpec :=
  readSpec "workspace.info" "Host + repo environment snapshot (cheap probes)" [] .workspace

def symLookupSpec : ToolSpec :=
  readSpec "sym.lookup" "Resolve a symbol name to its definition"
    [strParam "name" "symbol name",
      strParam "file" "hint file for unambiguous resolution"] .graph

def symRefsSpec : ToolSpec :=
  readSpec "sym.refs" "1-hop callers of a symbol (by name)" [strParam "name" "symbol name"] .graph

def symSnippetSpec : ToolSpec :=
  readSpec "sym.snippet" "Declaration + capped body of a symbol"
    [strParam "name" "symbol name", strParam "file" "hint file",
      intParam "max_bytes" "snippet cap" false] .graph

def symCalleesSpec : ToolSpec :=
  readSpec "sym.callees" "1-hop callees of a symbol (by name)"
    [strParam "name" "symbol name", strParam "file" "hint file"] .graph

def gitDiffSpec : ToolSpec :=
  readSpec "git.diff" "git diff for a file (or the whole tree)"
    [optionalStrParam "file" "path to diff",
      boolParam "staged" "diff the staged changes"] .workspace

def gitStatusSpec : ToolSpec := readSpec "git.status" "git status --short" [] .workspace

def gitBranchSpec : ToolSpec := readSpec "git.branch" "current branch name" [] .workspace

def gitShowSpec : ToolSpec :=
  readSpec "git.show" "Show a commit, or a file at a commit"
    [optionalStrParam "commit" "commit or ref (default HEAD)",
      optionalStrParam "file" "file path at that commit"] .workspace

def filePatchSpec : ToolSpec :=
  makeSpec (str "file.patch")
    (str ("Apply a unified diff (with context) to a file, atomically. " ++
      "reverse=true rolls the patch back."))
    [strParam "path" "path relative to the workspace", strParam "patch" "unified diff text",
      boolParam "reverse" "apply the reverse of the patch"]
    false .write

def shellSpec : ToolSpec :=
  makeSpec (str "shell.run")
    (str ("Run a shell command (gated). Streams stdout/stderr via progress " ++
      "events; kills the child on timeout or cancellation."))
    [strParam "cmd" "shell command to execute",
      intParam "timeout_ms" "kill after this many ms (0 = no limit)" false,
      optionalStrParam "working_dir" "working directory (relative to workspace)"]
    false .shell

def memoryWriteSpec : ToolSpec :=
  makeSpec (str "memory.write")
    (str ("Store a durable workspace memory entry. Re-writing the same key " ++
      "replaces the value; keys are short identifiers " ++
      "[a-z0-9._-]. Values must not contain secrets (tokens, " ++
      "passwords, sk-...)."))
    [strParam "key" "entry key, e.g. build_tool", strParam "value" "the fact to remember",
      enumParam "kind" "entry kind" ["decision", "fact", "repo_rule", "lesson", "user_pref"]]
    false .workspace

/-! ## Families -/

/-- What the tools do, by workspace and tool id. -/
def ToolRuns : Type := Bytes → Bytes → Nat → Invocation → Bool → Disk → ToolResult × Disk

/-- The options of the registration; a missing store or symbol index is a null pointer. -/
structure RegistryOptions where
  workspace : Bytes
  hasGraph : Bool
  includeWrite : Bool
  hasStore : Bool
  deriving Repr, DecidableEq

variable (runs : ToolRuns)

/-- The built-in tool with a specification. -/
def builtIn (workspace : Bytes) (spec : ToolSpec) : Tool := ⟨spec, runs workspace spec.id⟩

def makeReadTools (workspace : Bytes) (hasGraph : Bool) : List Tool :=
  ([fileReadSpec, dirListSpec, fileStatSpec, fileSearchSpec, workspaceInfoSpec] ++
    (if hasGraph then [symLookupSpec, symRefsSpec, symSnippetSpec, symCalleesSpec] else []) ++
    [gitDiffSpec, gitStatusSpec, gitBranchSpec, gitShowSpec]).map (builtIn runs workspace)

def makeWriteTools (workspace : Bytes) : List Tool :=
  [fileWriteTool workspace, builtIn runs workspace filePatchSpec]

def makeShellTool (workspace : Bytes) : List Tool := [builtIn runs workspace shellSpec]

def makeMemoryTools (workspace : Bytes) : List Tool := [builtIn runs workspace memoryWriteSpec]

/-- The tools the options ask for. -/
def defaultTools (opts : RegistryOptions) : List Tool :=
  makeReadTools runs opts.workspace opts.hasGraph ++
    (if opts.includeWrite then
      makeWriteTools runs opts.workspace ++ makeShellTool runs opts.workspace
    else []) ++
    (if opts.hasStore then makeMemoryTools runs opts.workspace else [])

/-- Add tools one after the other, up to the first that is refused. -/
def addAll : List Tool → ToolRegistry → Except Failure ToolRegistry
  | [], reg => .ok reg
  | tool :: rest, reg =>
      match reg.add tool with
      | .error e => .error e
      | .ok reg => addAll rest reg

def registerDefaults (opts : RegistryOptions) (reg : ToolRegistry) :
    Except Failure ToolRegistry :=
  addAll (defaultTools runs opts) reg

/-! ## Registration -/

theorem addAll_ok : ∀ (tools : List Tool) (reg : ToolRegistry),
    ((reg.tools ++ tools).map (·.spec.name)).Nodup →
      ∃ reg', addAll tools reg = .ok reg' ∧ reg'.tools = reg.tools ++ tools := by
  intro tools
  induction tools with
  | nil =>
      intro reg _
      exact ⟨reg, rfl, (List.append_nil _).symm⟩
  | cons tool rest inductionHypothesis =>
      intro reg distinct
      have fresh : tool.spec.name ∉ reg.tools.map (·.spec.name) := by
        intro taken
        rw [List.map_append, List.nodup_append] at distinct
        exact distinct.2.2 _ taken _ (List.mem_cons_self ..) rfl
      obtain ⟨added, success, tools⟩ :
          ∃ added, reg.add tool = .ok added ∧ added.tools = reg.tools ++ [tool] := by
        unfold ToolRegistry.add
        rw [dif_pos fresh]
        exact ⟨_, rfl, rfl⟩
      have distinct' : ((added.tools ++ rest).map (·.spec.name)).Nodup := by
        rw [tools, List.append_assoc]
        exact distinct
      obtain ⟨reg', whole, all⟩ := inductionHypothesis added distinct'
      refine ⟨reg', ?_, ?_⟩
      · simp only [addAll, success, whole]
      · rw [all, tools, List.append_assoc]
        rfl

/-- The specifications the options ask for. -/
def defaultSpecs (hasGraph includeWrite hasStore : Bool) : List ToolSpec :=
  [fileReadSpec, dirListSpec, fileStatSpec, fileSearchSpec, workspaceInfoSpec] ++
    (if hasGraph then [symLookupSpec, symRefsSpec, symSnippetSpec, symCalleesSpec] else []) ++
    [gitDiffSpec, gitStatusSpec, gitBranchSpec, gitShowSpec] ++
    (if includeWrite then [fileWriteSpec, filePatchSpec, shellSpec] else []) ++
    (if hasStore then [memoryWriteSpec] else [])

theorem defaultTools_specs (opts : RegistryOptions) :
    (defaultTools runs opts).map (·.spec) =
      defaultSpecs opts.hasGraph opts.includeWrite opts.hasStore := by
  obtain ⟨workspace, hasGraph, includeWrite, hasStore⟩ := opts
  cases hasGraph <;> cases includeWrite <;> cases hasStore <;> rfl

theorem defaultSpecs_distinct : ∀ hasGraph includeWrite hasStore,
    ((defaultSpecs hasGraph includeWrite hasStore).map (·.name)).Nodup := by
  decide +kernel

theorem defaultSpecs_truthful : ∀ hasGraph includeWrite hasStore,
    ∀ spec ∈ defaultSpecs hasGraph includeWrite hasStore,
      spec.category = .write → spec.isReadOnly = false := by
  decide +kernel

/-- **Registration succeeds** and registers what the options ask for. -/
theorem registerDefaults_ok (opts : RegistryOptions) :
    ∃ reg, registerDefaults runs opts .empty = .ok reg ∧ reg.tools = defaultTools runs opts := by
  refine addAll_ok (defaultTools runs opts) .empty ?_
  have names : (defaultTools runs opts).map (·.spec.name) =
      (defaultSpecs opts.hasGraph opts.includeWrite opts.hasStore).map (·.name) := by
    rw [← defaultTools_specs runs opts, List.map_map]
    rfl
  show ((defaultTools runs opts).map (·.spec.name)).Nodup
  rw [names]
  exact defaultSpecs_distinct ..

/-- No tool that writes is registered as read-only. -/
def ToolRegistry.Truthful (reg : ToolRegistry) : Prop :=
  ∀ tool ∈ reg.tools, tool.spec.category = .write → tool.spec.isReadOnly = false

theorem registerDefaults_truthful {opts : RegistryOptions} {reg : ToolRegistry}
    (registered : registerDefaults runs opts .empty = .ok reg) : reg.Truthful := by
  obtain ⟨reg', success, tools⟩ := registerDefaults_ok runs opts
  rw [registered] at success
  cases success
  intro tool member
  have listed : tool.spec ∈ (defaultTools runs opts).map (·.spec) :=
    List.mem_map_of_mem (tools ▸ member)
  rw [defaultTools_specs] at listed
  exact defaultSpecs_truthful _ _ _ tool.spec listed

/-- With the write tools, file.write works on the workspace of the registration. -/
theorem find_fileWrite_of_registerDefaults {opts : RegistryOptions} {reg : ToolRegistry}
    (registered : registerDefaults runs opts .empty = .ok reg) (write : opts.includeWrite = true) :
    reg.find fileWriteId = some (fileWriteTool opts.workspace) := by
  obtain ⟨reg', success, tools⟩ := registerDefaults_ok runs opts
  rw [registered] at success
  cases success
  have member : fileWriteTool opts.workspace ∈ reg.tools := by
    rw [tools]
    simp [defaultTools, makeWriteTools, write]
  exact ToolRegistry.find_of_mem member

end Opencodepp.Tools
