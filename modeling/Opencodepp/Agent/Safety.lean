import Opencodepp.Agent.Dispatch
import Opencodepp.Agent.Scripted
import Opencodepp.App.Engine

/-!
# What may run, and what it may write

The discipline of dispatches in terms of the workspace: a write reaches the permission gate
only after its own proposal has passed the verification gate, and what file.write then
writes is what the proposal showed.

Which tools run is a matter of the two gates alone.  The intent of the turn decides what the
provider is offered, and a reply that keeps to the offer stays within it; a reply that does
not is executed all the same.
-/

set_option autoImplicit false

namespace Opencodepp.Agent

open Opencodepp.Core
open Opencodepp.Library
open Opencodepp.Library.Trace
open Opencodepp.Msg
open Opencodepp.Provider

variable {P : Provider} (env : Env)

/-! ## The proposal of a write -/

/-- A path that a proposal may have. -/
structure CleanPath (path : Bytes) : Prop where
  nonempty : path ≠ []
  isRelative : path.head? ≠ some slash
  noParent : occursIn (str "..") path = false

theorem proposalPath_ok {args : Util.JVal} {path : Bytes} (checked : proposalPath args = .ok path) :
    args.findString (str "path") = some path ∧ CleanPath path := by
  unfold proposalPath at checked
  split at checked
  · cases checked
  · next found =>
      split at checked
      · cases checked
      · next nonempty =>
          split at checked
          · cases checked
          · next inside =>
              cases checked
              simp only [Bool.or_eq_true, decide_eq_true_eq, not_or, Bool.not_eq_true] at inside
              exact ⟨found, nonempty, inside.1, inside.2⟩

/-- A proposal of file.write takes its path and content from the arguments. -/
theorem buildProposal_write {root : Bytes} {call : ToolCallDone} {disk : Disk}
    {prop : Verify.EditProposal} (built : (buildProposal root call disk).1 = .ok prop)
    (name : call.name = Tools.fileWriteId) :
    ∃ args, Util.parseJson call.inputJson = .ok args ∧
      args.findString (str "path") = some prop.path ∧
      args.findString (str "content") = some prop.afterContent ∧ CleanPath prop.path := by
  unfold buildProposal at built
  split at built
  · cases built
  · next args parsed =>
      split at built
      · cases built
      · next path checked =>
          have isWrite : call.name = str "file.write" := name
          rw [if_pos isWrite] at built
          obtain ⟨foundPath, clean⟩ := proposalPath_ok checked
          split at built
          · cases built
          · next content foundContent =>
              cases built
              exact ⟨args, parsed, foundPath, foundContent, clean⟩

/-- What file.write does with an invocation is what the proposal says. -/
structure WritesAsProposed (root : Bytes) (inv : Tools.Invocation) (prop : Verify.EditProposal) :
    Prop where
  below : ∃ below, (FileId.of (Tools.plainPath root prop.path)).components =
    FileId.componentsOf (cString root) ++ below ∧ str ".." ∉ below
  planned : ∀ disk plan, (Tools.planWrite root inv.argsJson disk).1 = .ok plan →
    FileId.of plan.target = FileId.of (Tools.plainPath root prop.path) ∧
      plan.content = prop.afterContent
  written : (0 : UInt8) ∉ root → (0 : UInt8) ∉ prop.path →
    ∀ asked canceled before result after,
      (Tools.fileWriteTool root).run asked inv canceled before = (result, after) →
      result.status = .ok →
      after.node (FileId.of (Tools.plainPath root prop.path)) = some (.file prop.afterContent)

/-- **The tool writes what was proposed.** -/
theorem writesAsProposed_of_built {root : Bytes} {call : ToolCallDone} {disk : Disk}
    {prop : Verify.EditProposal} (built : (buildProposal root call disk).1 = .ok prop)
    (name : call.name = Tools.fileWriteId) :
    WritesAsProposed root (invocationOf call) prop := by
  obtain ⟨args, parsed, foundPath, foundContent, clean⟩ := buildProposal_write built name
  -- both parsers read the same arguments, so they agree on path and content
  have agree : ∀ disk plan, (Tools.planWrite root call.inputJson disk).1 = .ok plan →
      plan.content = prop.afterContent ∧
        Tools.resolveInSandbox root prop.path = some plan.target := by
    intro disk plan planned
    obtain ⟨args', parsed', path, content, resolved⟩ := Tools.planWrite_ok planned
    rw [parsed] at parsed'
    cases parsed'
    have samePath : plan.path = prop.path := Option.some.inj (path.symm.trans foundPath)
    have sameContent : plan.content = prop.afterContent :=
      Option.some.inj (content.symm.trans foundContent)
    exact ⟨sameContent, samePath ▸ resolved⟩
  have sameFile : ∀ abs, Tools.resolveInSandbox root prop.path = some abs →
      FileId.of abs = FileId.of (Tools.plainPath root prop.path) := by
    intro abs resolved
    obtain ⟨abs', resolved', same⟩ :=
      Tools.fileId_resolveInSandbox root clean.nonempty clean.isRelative clean.noParent
    rw [resolved] at resolved'
    cases resolved'
    exact same
  refine ⟨Tools.plainPath_below root clean.noParent, ?_, ?_⟩
  · intro disk plan planned
    obtain ⟨content, resolved⟩ := agree disk plan planned
    exact ⟨sameFile _ resolved, content⟩
  · intro zeroRoot zeroPath asked canceled before result after ran ok
    dsimp only [Tools.fileWriteTool] at ran
    split at ran
    · next refusal d refused =>
        have reported := Tools.status_of_refusal (congrArg Prod.fst refused)
        cases ran
        rw [reported] at ok
        cases ok
    · next plan d planned =>
        obtain ⟨content, resolved⟩ := agree before plan (congrArg Prod.fst planned)
        have clean' := Tools.zero_notMem_resolveInSandbox clean.nonempty clean.isRelative
          clean.noParent zeroRoot zeroPath resolved
        rw [← sameFile _ resolved, ← content]
        exact Tools.node_commitWrite ran ok clean'

/-- **A write is dispatched only after its own proposal has passed the gate**, in every drive
and at every place of its log; and file.write, where it is wired to the gate's workspace,
writes to the proposed file exactly the proposed content. -/
theorem write_dispatched_after_gate (fuel : Nat) (input : Bytes) (s : Sys P)
    {later past : List Ev} {inv : Tools.Invocation}
    (here : (drive env fuel input s).2.log = later ++ .permission inv :: past)
    {reg : Tools.ToolRegistry} {tool : Tools.Tool} (tools : env.opts.tools = some reg)
    (found : reg.find inv.toolName = some tool) (writes : tool.spec.category = .write) :
    ∃ call prop, inv = invocationOf call ∧ Vetted env call prop past ∧
      (App.Wired env.opts → inv.toolName = Tools.fileWriteId →
        tool = Tools.fileWriteTool env.opts.verifyCtx.workspaceRoot ∧
        WritesAsProposed env.opts.verifyCtx.workspaceRoot inv prop) := by
  have fact := drive_disciplined env fuel input s
  rw [here] at fact
  obtain ⟨call, tool', dispatch⟩ := fact.at
  obtain ⟨reg', tools', found'⟩ := dispatch.registered
  rw [tools] at tools'
  cases tools'
  have invocation := dispatch.invocation
  subst invocation
  have same : tool' = tool := Option.some.inj (found'.symm.trans found)
  subst same
  obtain ⟨prop, vetted⟩ := dispatch.vetted writes
  refine ⟨call, prop, rfl, vetted, fun wired name => ⟨?_, ?_⟩⟩
  · rw [name, wired reg tools] at found
    exact (Option.some.inj found).symm
  · obtain ⟨disk, built⟩ := vetted.1
    exact writesAsProposed_of_built built name

/-- A dispatch, at its place in the log. -/
theorem dispatch_at {log : List Ev} {p : Tools.Invocation → Bool}
    (found : (log.any fun
      | .permission inv => p inv
      | _ => false) = true) :
    ∃ later inv past, log = later ++ .permission inv :: past ∧ p inv = true := by
  obtain ⟨e, member, holds⟩ := List.any_eq_true.mp found
  cases e <;> simp only [Bool.false_eq_true] at holds
  case permission inv =>
      obtain ⟨later, past, split⟩ := List.append_of_mem member
      exact ⟨later, inv, past, split, holds⟩

/-- An execution with a given kind of specification. -/
def executionOf (p : Tools.ToolSpec → Bool) : Ev → Bool
  | .execute spec _ _ _ _ => p spec
  | _ => false

/-- An agent that is asked to write a file. -/
def writeEnv : Env :=
  scriptedEnv writeTools [callReply "c1" "file.write" (writeArgs "a" "x")] []

/-- Asked to fix something, it dispatches the write and executes it. -/
theorem writeEnv_log :
    ((drive writeEnv 3 (str "fix it") scriptedStart).2.log.any fun
      | .permission inv => inv.toolName = Tools.fileWriteId
      | _ => false) = true ∧
    (drive writeEnv 3 (str "fix it") scriptedStart).2.log.any
      (executionOf fun _ => true) = true := by
  decide +kernel

theorem write_dispatched_after_gate_fix :
    ∃ later inv past call prop,
      (drive writeEnv 3 (str "fix it") scriptedStart).2.log = later ++ .permission inv :: past ∧
      inv = invocationOf call ∧ Vetted writeEnv call prop past ∧
      WritesAsProposed (str "/w") inv prop := by
  obtain ⟨later, inv, past, here, named⟩ := dispatch_at writeEnv_log.1
  have name : inv.toolName = Tools.fileWriteId := by simpa using named
  have registered : writeTools.find inv.toolName = some (Tools.fileWriteTool (str "/w")) :=
    name ▸ writeTools_find
  have wired : App.Wired writeEnv.opts := by
    intro reg same
    cases same
    exact writeTools_find
  obtain ⟨call, prop, invocation, vetted, agrees⟩ :=
    write_dispatched_after_gate writeEnv 3 (str "fix it") scriptedStart here rfl registered rfl
  exact ⟨later, inv, past, call, prop, here, invocation, vetted, (agrees wired name).2⟩

/-! ## The offered tools -/

/-- A tool is offered in the round the log stands in. -/
def Offered (log : List Ev) (name : Bytes) : Prop :=
  ∃ msgs tools, latestPlan log = some (msgs, tools) ∧ ∃ spec ∈ tools, spec.name = name

/-- What is offered is registered, and read-only unless the plan has the edit profile. -/
theorem tool_of_mem_toolsetFor {plan : IntentPlan} {reg : Tools.ToolRegistry} {spec : ToolSpec}
    (member : spec ∈ toolsetFor plan (some reg)) :
    ∃ tool ∈ reg.tools, spec = toProviderSpec tool ∧
      (plan.budgetProfile ≠ .edit → tool.spec.isReadOnly = true) := by
  unfold toolsetFor at member
  dsimp only at member
  split at member
  · exact absurd member List.not_mem_nil
  · split at member
    · next edit =>
        obtain ⟨tool, inTools, same⟩ := List.mem_map.mp member
        exact ⟨tool, inTools, same.symm, fun other => absurd edit other⟩
    · obtain ⟨tool, kept, same⟩ := List.mem_map.mp member
      obtain ⟨inTools, readOnly⟩ := List.mem_filter.mp kept
      exact ⟨tool, inTools, same.symm, fun _ => readOnly⟩

/-- **What is executed was called and permitted.**  Every execution of a drive runs a
registered tool that the permission gate has allowed, for a call of the latest reply.  When
the name called was offered in that round, the tool is the offered one; and when besides the
plan may not write, it is not a tool that writes. -/
theorem executed_was_called (fuel : Nat) (input : Bytes) (s : Sys P) {later past : List Ev}
    {spec : Tools.ToolSpec} {inv : Tools.Invocation} {before after : Disk}
    {result : Tools.ToolResult}
    (here : (drive env fuel input s).2.log =
      later ++ .execute spec inv before result after :: past) :
    ∃ reg gate asked tool acc call msgs,
      env.opts.tools = some reg ∧ env.opts.permission = some gate ∧
      gate.permit reg asked inv.toolName inv = .ok tool ∧ tool.spec = spec ∧
      latestReply past = some acc ∧ call ∈ acc.calls ∧ inv = invocationOf call ∧
      latestPlan past = some (msgs, toolsetFor (classifyIntent input) (some reg)) ∧
      (Offered past inv.toolName →
        toProviderSpec tool ∈ toolsetFor (classifyIntent input) (some reg)) ∧
      (Offered past inv.toolName → reg.Truthful →
        (classifyIntent input).writeAllowed = false → spec.category ≠ .write) := by
  have fact := drive_disciplined env fuel input s
  rw [here] at fact
  obtain ⟨earlier, tool, rfl, execution⟩ := fact.at
  obtain ⟨reg, gate, asked, tools, permission, permitted⟩ := execution.permitted
  -- the dispatch is the entry right before the execution
  rw [show later ++ .execute spec inv before result after :: .permission inv :: earlier =
    (later ++ [.execute spec inv before result after]) ++ .permission inv :: earlier by simp]
    at fact
  obtain ⟨call, _, dispatch⟩ := fact.at
  obtain ⟨acc, reply, called⟩ := dispatch.requested.replied
  obtain ⟨msgs, planned⟩ := dispatch.requested.planned
  rw [tools] at planned
  have found : reg.find inv.toolName = some tool := Tools.Gate.find_of_permit permitted
  have offered : Offered (.permission inv :: earlier) inv.toolName →
      toProviderSpec tool ∈ toolsetFor (classifyIntent input) (some reg) ∧
        ((classifyIntent input).budgetProfile ≠ .edit → tool.spec.isReadOnly = true) := by
    rintro ⟨msgs', offered, latest, o, inOffered, name⟩
    have same : offered = toolsetFor (classifyIntent input) (some reg) :=
      congrArg Prod.snd (Option.some.inj (latest.symm.trans planned))
    rw [same] at inOffered
    obtain ⟨tool', inTools, shape, readOnly⟩ := tool_of_mem_toolsetFor inOffered
    have sameName : tool'.spec.name = inv.toolName := by
      rw [← name, shape]
      rfl
    have sameTool : tool = tool' :=
      Option.some.inj (found.symm.trans (sameName ▸ Tools.ToolRegistry.find_of_mem inTools))
    subst sameTool
    exact ⟨shape ▸ inOffered, readOnly⟩
  refine ⟨reg, gate, asked, tool, acc, call, msgs, tools, permission, permitted, execution.spec,
    reply, called, dispatch.invocation, planned, fun named => (offered named).1, ?_⟩
  intro named truthful mayNot writes
  have notEdit : (classifyIntent input).budgetProfile ≠ .edit := by
    intro edit
    rw [(classifyIntent_coherent input).mpr edit] at mayNot
    cases mayNot
  have readOnly := (offered named).2 notEdit
  rw [truthful tool (Tools.ToolRegistry.mem_of_find found) (execution.spec ▸ writes)] at readOnly
  cases readOnly

/-- An execution, at its place in the log. -/
theorem execution_at {log : List Ev} {p : Tools.ToolSpec → Bool}
    (found : log.any (executionOf p) = true) :
    ∃ later spec inv before result after past,
      log = later ++ .execute spec inv before result after :: past ∧ p spec = true := by
  obtain ⟨e, member, holds⟩ := List.any_eq_true.mp found
  cases e <;> simp only [executionOf, Bool.false_eq_true] at holds
  case execute spec inv before result after =>
      obtain ⟨later, past, split⟩ := List.append_of_mem member
      exact ⟨later, spec, inv, before, result, after, past, split, holds⟩

theorem executed_was_called_fix :
    ∃ later spec inv before result after past acc call,
      (drive writeEnv 3 (str "fix it") scriptedStart).2.log =
        later ++ .execute spec inv before result after :: past ∧
      latestReply past = some acc ∧ call ∈ acc.calls ∧ inv = invocationOf call := by
  obtain ⟨later, spec, inv, before, result, after, past, here, _⟩ := execution_at writeEnv_log.2
  obtain ⟨_, _, _, _, acc, call, _, _, _, _, _, reply, called, invocation, _⟩ :=
    executed_was_called writeEnv 3 (str "fix it") scriptedStart here
  exact ⟨later, spec, inv, before, result, after, past, acc, call, here, reply, called, invocation⟩

/-- Asked to explain something, the agent writes a file when the provider says so: the tool
was never offered, and nothing looks at the plan again. -/
theorem explanation_writes_file :
    ¬ ((classifyIntent (str "explain x")).writeAllowed = false →
      ∀ e ∈ (drive writeEnv 3 (str "explain x") scriptedStart).2.log,
        executionOf (fun spec => spec.category = .write) e = false) := by
  decide +kernel

end Opencodepp.Agent
