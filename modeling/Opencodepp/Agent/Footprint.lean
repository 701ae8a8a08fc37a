import Opencodepp.Agent.Safety
import Opencodepp.Tools.Footprint

/-!
# Which files a drive changes

A drive reads files when it builds proposals and changes them only where it runs a tool.  The log
has the files before and after every execution, and the executions of a drive join up: the first
starts from the files the drive started from, each one from what the one before it left, and the
last one left the files as they are (`drive_carried`).

So a file that is different after a drive was changed by one of its executions.  Where the tools
that write are file.write and file.patch, and the others write nothing or are denied, that
execution was a write whose own proposal had passed every stage of the verification gate, and the
file is the target of that proposal, its shadow, or the temporary file of either
(`changed_was_vetted`).
-/

set_option autoImplicit false

namespace Opencodepp.Agent

open Opencodepp.Core
open Opencodepp.Library
open Opencodepp.Library.Program
open Opencodepp.Library.Trace
open Opencodepp.Msg
open Opencodepp.Provider

variable {P : Provider} {ε : Type} (env : Env)

/-! ## Joined steps -/

/-- Steps from one disk to another, newest first, each from the files the one before it left. -/
def Chained (start : Disk) : List (Disk × Disk) → Disk → Prop
  | [], d => d.node = start.node
  | (before, after) :: past, d => d.node = after.node ∧ Chained start past before

section Chained

variable {start mid d d' : Disk} {early late steps : List (Disk × Disk)}

theorem Chained.congr (chained : Chained start steps d) (same : d'.node = d.node) :
    Chained start steps d' := by
  cases steps with
  | nil => exact same.trans chained
  | cons step past => exact ⟨same.trans chained.1, chained.2⟩

theorem Chained.append (first : Chained start early mid) (second : Chained mid late d) :
    Chained start (late ++ early) d := by
  induction late generalizing d with
  | nil => exact first.congr second
  | cons step past inductionHypothesis => exact ⟨second.1, inductionHypothesis second.2⟩

/-- A file that has changed was changed by one of the steps. -/
theorem Chained.exists_change {id : FileId} (chained : Chained start steps d)
    (changed : d.node id ≠ start.node id) :
    ∃ step ∈ steps, step.2.node id ≠ step.1.node id := by
  induction steps generalizing d with
  | nil => exact absurd (congrFun chained id) changed
  | cons step past inductionHypothesis =>
      by_cases here : step.2.node id = step.1.node id
      · have earlier : step.1.node id ≠ start.node id := by
          rw [← here, ← congrFun chained.1 id]
          exact changed
        obtain ⟨found, member, differs⟩ := inductionHypothesis chained.2 earlier
        exact ⟨found, List.mem_cons_of_mem _ member, differs⟩
      · exact ⟨step, List.mem_cons_self, here⟩

end Chained

/-- The disk before and after an execution. -/
def executed : Ev → Option (Disk × Disk)
  | .execute _ _ before _ after => some (before, after)
  | _ => none

/-- What was logged since leads from the files then to the files now. -/
def Carried (s s' : Sys P) : Prop :=
  ∃ new, s'.log = new ++ s.log ∧ Chained s.disk (new.filterMap executed) s'.disk

theorem Carried.framing : Framing (Carried (P := P)) where
  refl _ := ⟨[], rfl, rfl⟩
  trans := by
    rintro s s' s'' ⟨early, split, first⟩ ⟨late, split', second⟩
    refine ⟨late ++ early, by rw [split', split, List.append_assoc], ?_⟩
    rw [List.filterMap_append]
    exact first.append second

/-- Entries that are no execution. -/
def Still (e : Ev) : Prop := executed e = none

variable {s s' : Sys P}

theorem Carried.of_still (files : s'.disk.node = s.disk.node) (log : Extends Still s.log s'.log) :
    Carried s s' := by
  obtain ⟨new, split, still⟩ := log
  refine ⟨new, split, ?_⟩
  rw [List.filterMap_eq_nil_iff.mpr still]
  exact files

theorem Carried.of_calm {A : Ev → Prop} (calm : Calm A s s') (still : ∀ e, A e → Still e) :
    Carried s s' :=
  .of_still (congrArg (Disk.node ∘ Books.disk) calm.books) (calm.log.mono still)

/-! ## Steps that run no tool -/

theorem carried_of_same {α : Type} {x : Program (Sys P) ε α}
    (files : ∀ s, (x s).2.disk.node = s.disk.node)
    (log : ∀ s, Extends Still s.log (x s).2.log) : Within Carried x :=
  fun s => .of_still (files s) (log s)

theorem carried_update {f : Sys P → Sys P} (files : ∀ s, (f s).disk = s.disk)
    (log : ∀ s, (f s).log = s.log) : Within Carried (.update f : Program (Sys P) ε Unit) :=
  carried_of_same (fun s => congrArg Disk.node (files s))
    fun s => (log s).symm ▸ Extends.refl Still s.log

theorem carried_record {ev : Ev} (still : Still ev) :
    Within Carried (record ev : Program (Sys P) ε Unit) :=
  carried_of_same (fun _ => rfl) fun s => .single still s.log

theorem carried_emit (phase : String) (detail : Bytes) (status : Nat) :
    Within Carried (emit env phase detail status : Program (Sys P) ε Unit) := by
  intro s
  have quiet : Within (Quiet fun _ e => Still e)
      (emit env phase detail status : Program (Sys P) ε Unit) := quiet_emit env fun _ _ _ => rfl
  exact .of_calm ((quiet s).calm fun _ still => still) fun _ still => still

theorem carried_setState (target : AgentState) :
    Within Carried (setState target : Program (Sys P) ε Unit) :=
  carried_of_same (fun _ => rfl) fun s => .single (by exact rfl) s.log

theorem carried_enter (target : AgentState) (phase : String) (detail : Bytes) (status : Nat) :
    Within Carried (enter env target phase detail status : Program (Sys P) ε Unit) :=
  .bind Carried.framing (carried_setState target) fun _ => carried_emit env phase detail status

theorem carried_checkpoint : Within Carried (checkpoint env : Program (Sys P) ε Unit) :=
  .onlyIf Carried.framing (carried_emit env _ _ _)

theorem carried_pollCancel (site : PollSite) :
    Within Carried (pollCancel env site : Program (Sys P) ε Bool) :=
  carried_of_same (fun _ => rfl) fun s => .single (by exact rfl) s.log

theorem carried_appendMessage (role : Role) (model : Bytes) (parts : List Part) :
    Within Carried (appendMessage env role model parts : Program (Sys P) ε Unit) :=
  carried_update (fun _ => rfl) fun _ => rfl

/-! ## The calls of a reply -/

/-- The permission gate runs one tool or none, and logs what it runs. -/
theorem carried_permissionRun (reg : Tools.ToolRegistry) (gate : Tools.Gate)
    (inv : Tools.Invocation) :
    Within Carried (permissionRun reg gate inv : Program (Sys P) ε Tools.ToolResult) := by
  intro s
  refine ⟨executions reg gate inv s ++ [.permission inv], by simp [permissionRun], ?_⟩
  rw [List.filterMap_append]
  dsimp only [permissionRun]
  unfold executions Tools.Gate.run
  cases gate.permit reg s.count.asks inv.toolName inv with
  | error refusal => rfl
  | ok tool => exact ⟨rfl, rfl⟩

theorem carried_writeRepoRule (name : Bytes) :
    Within Carried (writeRepoRule env name : Program (Sys P) ε Unit) :=
  .onlyIf Carried.framing (carried_record rfl)

theorem carried_applyWrite (reg : Tools.ToolRegistry) (gate : Tools.Gate) (call : ToolCallDone)
    (prop : Verify.EditProposal) :
    Within Carried (applyWrite env reg gate call prop : Program (Sys P) ε ToolOutcome) := by
  have framing := Carried.framing (P := P)
  refine .bind framing (carried_enter env _ _ _ _) fun _ => ?_
  refine .bind framing (carried_permissionRun reg gate _) fun r => ?_
  split
  · exact .bind framing (carried_update (fun _ => rfl) fun _ => rfl) fun _ => .pure framing _
  · exact .bind framing (.onlyIf framing (carried_writeRepoRule env _)) fun _ => .pure framing _
  · exact .pure framing _

theorem carried_runPlainTool (reg : Tools.ToolRegistry) (gate : Tools.Gate) (call : ToolCallDone) :
    Within Carried (runPlainTool env reg gate call : Program (Sys P) ε ToolOutcome) := by
  have framing := Carried.framing (P := P)
  refine .bind framing (carried_permissionRun reg gate _) fun r => ?_
  refine .ite (.pure framing _) (.ite ?_ (.pure framing _))
  exact .bind framing (carried_writeRepoRule env _) fun _ => .pure framing _

theorem carried_gateFeedback (fail : Verify.GateResult) :
    Within Carried (gateFeedback env fail : Program (Sys P) ε Bytes) := by
  have framing := Carried.framing (P := P)
  refine .bind framing (carried_emit env _ _ _) fun _ => ?_
  refine .bind framing (.gets framing _) fun seen => ?_
  refine .ite (.bind framing ?_ fun _ => .pure framing _)
    (.bind framing ?_ fun _ => .pure framing _)
  all_goals exact carried_update (fun _ => rfl) fun _ => rfl

theorem node_readCurrent (path : Bytes) (d : Disk) : (readCurrent path d).2.node = d.node := by
  have same : (d.read path).2.node = d.node := rfl
  unfold readCurrent
  split
  all_goals
    next read =>
      rw [read] at same
      exact same

/-- Building a proposal reads a file, which changes none. -/
theorem node_buildProposal (root : Bytes) (call : ToolCallDone) (d : Disk) :
    (buildProposal root call d).2.node = d.node := by
  unfold buildProposal
  split
  · rfl
  · split
    · rfl
    · split
      · split
        · rfl
        · exact node_readCurrent _ d
      · split
        · split <;> rfl
        · rfl

theorem carried_propose (call : ToolCallDone) :
    Within Carried (propose env call : Program (Sys P) ε _) :=
  carried_of_same (fun s => node_buildProposal _ call s.disk) fun s => .refl _ s.log

theorem carried_runWriteTool (reg : Tools.ToolRegistry) (gate : Tools.Gate)
    (checkers : Verify.Checkers) (call : ToolCallDone) :
    Within Carried (runWriteTool env reg gate checkers call : Program (Sys P) ε ToolOutcome) := by
  have framing := Carried.framing (P := P)
  refine .bind framing (carried_enter env _ _ _ _) fun _ => ?_
  refine .bind framing (carried_propose env call) fun proposed => ?_
  split
  · exact .pure framing _
  · refine .bind framing ?_ fun results => ?_
    · exact carried_of_same (fun _ => rfl) fun s => .single (by exact rfl) s.log
    · split
      · exact .bind framing (carried_gateFeedback env _) fun _ => .pure framing _
      · exact carried_applyWrite env reg gate call _

theorem carried_runTool (call : ToolCallDone) :
    Within Carried (runTool env call : Program (Sys P) ε ToolOutcome) := by
  have framing := Carried.framing (P := P)
  refine .bind framing (carried_record rfl) fun _ => ?_
  split
  · split
    · exact .pure framing _
    · exact .ite (carried_runWriteTool env _ _ _ _) (carried_runPlainTool env _ _ _)
  · exact .pure framing _

theorem carried_answerCall (call : ToolCallDone) (outcome : ToolOutcome) :
    Within Carried (answerCall env call outcome : Program (Sys P) ε Unit) := by
  refine .ite (.bind Carried.framing ?_ fun _ => ?_) (carried_appendMessage env _ _ _)
  · exact carried_update (fun _ => rfl) fun _ => rfl
  · exact carried_appendMessage env _ _ _

theorem carried_toolLoop (calls : List ToolCallDone) :
    Within Carried (toolLoop env calls : Program (Sys P) ε Unit) := by
  have framing := Carried.framing (P := P)
  induction calls with
  | nil => exact .pure framing ()
  | cons call rest inductionHypothesis =>
      refine .bind framing (carried_pollCancel env _) fun seen => ?_
      refine .ite (carried_record rfl) ?_
      refine .bind framing (carried_runTool env call) fun outcome => ?_
      refine .bind framing (carried_answerCall env call outcome) fun _ => ?_
      refine .bind framing (.gets framing _) fun aborted => ?_
      refine .ite (.bind framing ?_ fun _ => carried_record rfl)
        (.ite (carried_record rfl) inductionHypothesis)
      exact carried_update (fun _ => rfl) fun _ => rfl

/-! ## Rounds and drives -/

theorem carried_breakWith {α : Type} (e : Failure) :
    Within Carried (breakWith e : Program (Sys P) Unit α) :=
  .bind Carried.framing (carried_update (fun _ => rfl) fun _ => rfl)
    fun _ => .stop Carried.framing ()

theorem carried_settleReply : Within Carried (settleReply env : Program (Sys P) Unit Unit) := by
  have framing := Carried.framing (P := P)
  have takes : Within Carried (acceptReply env : Program (Sys P) Unit Accum) :=
    carried_of_same (fun _ => rfl) fun s => .single (by exact rfl) s.log
  refine .bind framing takes fun reply => ?_
  refine .ite (.bind framing (carried_record rfl) fun _ => carried_breakWith _) ?_
  refine .ite ?_ ?_
  · refine .bind framing (carried_update (fun _ => rfl) fun _ => rfl) fun _ => ?_
    exact .bind framing (carried_enter env _ _ _ _) fun _ => .stop framing ()
  · refine .bind framing (carried_enter env _ _ _ _) fun _ => ?_
    refine .bind framing (carried_toolLoop env _) fun _ => ?_
    refine .bind framing (carried_checkpoint env) fun _ => ?_
    refine .bind framing (.gets framing _) fun ec => ?_
    refine .bind framing (.stopIf framing _ _) fun _ => ?_
    refine .bind framing (.gets framing _) fun aborted => ?_
    exact .onlyIf framing (carried_breakWith _)

theorem carried_beginDrive (input : Bytes) :
    Within Carried (beginDrive env input : Program (Sys P) Failure IntentPlan) := by
  have framing := Carried.framing (P := P)
  refine .bind framing (.gets framing _) fun before => ?_
  refine .bind framing (.onlyIf framing (carried_setState _)) fun _ => ?_
  refine .bind framing (.gets framing _) fun state => ?_
  refine .bind framing (.stopIf framing _ _) fun _ => ?_
  refine .bind framing (.bind framing (carried_pollCancel env _) fun _ =>
    .stopIf framing _ _) fun _ => ?_
  refine .bind framing (carried_update (fun _ => rfl) fun _ => rfl) fun _ => ?_
  refine .bind framing (carried_enter env _ _ _ _) fun _ => ?_
  exact .bind framing (carried_appendMessage env _ _ _) fun _ => .pure framing _

theorem carried_finishDrive (plan : IntentPlan) :
    Within Carried (finishDrive env plan : Program (Sys P) ε Unit) := by
  have framing := Carried.framing (P := P)
  refine .bind framing (carried_checkpoint env) fun _ => ?_
  refine .bind framing (carried_update (fun _ => rfl) fun _ => rfl) fun _ => ?_
  refine .bind framing (.gets framing _) fun ec => ?_
  refine .ite (carried_enter env _ _ _ _) (.ite ?_ (carried_enter env _ _ _ _))
  refine .bind framing (.gets framing _) fun state => ?_
  refine .bind framing (.onlyIf framing (carried_enter env _ _ _ _)) fun _ => ?_
  refine .bind framing (.gets framing _) fun summary => ?_
  exact .onlyIf framing (carried_record rfl)

theorem still_frontEv {tools : List ToolSpec} {e : Ev} (front : FrontEv tools e) : Still e := by
  cases e <;> first | rfl | exact front.elim

theorem still_netEv {msgs : List Message} {used : UInt64} {tools : List ToolSpec} {e : Ev}
    (net : NetEv msgs used tools e) : Still e := by
  cases e <;> first | rfl | exact net.elim

/-- **One round** runs from the files it found. -/
theorem round_carried {plan : IntentPlan} (going : Going s) :
    wp (round env plan) (fun _ => Carried s) (fun _ => Carried s) s := by
  refine wp_round env going.resting ?_ ?_ ?_
  · intro _ s' books _ log
    refine .of_still (congrArg (Disk.node ∘ Books.disk) books) ?_
    rw [log]
    exact .single (by exact rfl) s.log
  · intro _ s' e prepared
    exact Carried.framing.trans (.of_calm prepared.calm fun _ => still_frontEv)
      (.of_still rfl (.refl _ _))
  · intro _ s₁ budget prepared _ _
    have first := Carried.of_calm prepared.calm fun _ => still_frontEv
    refine wp_mono (oneRound_spec env _ budget (.inl prepared.state))
      (fun _ s₂ answered => ?_) (fun e s₂ called => ?_)
    · have second := Carried.framing.trans first
        (.of_calm answered.1.calm fun _ => still_netEv)
      exact wp_mono ((carried_settleReply env).wp s₂)
        (fun _ _ third => Carried.framing.trans second third)
        (fun _ _ third => Carried.framing.trans second third)
    · exact Carried.framing.trans
        (Carried.framing.trans first (.of_calm called.calm fun _ => still_netEv))
        (.of_still rfl (.refl _ _))

/-- **The executions of a drive join up**, from the files it found to the files it leaves. -/
theorem drive_carried (fuel : Nat) (input : Bytes) (s : Sys P) :
    Chained s.disk ((drive env fuel input s).2.log.filterMap executed)
      (drive env fuel input s).2.disk := by
  have carried : Carried s.opened (drive env fuel input s).2 := by
    refine drive_rule env (I := fun s' => Going s' ∧ Carried s.opened s')
      (E := fun s' => Carried s.opened s') (F := fun _ s' => Carried s.opened s') ?_ ?_ ?_ ?_ fuel
    · have starts : wp (beginDrive env input)
          (fun plan s' => plan = classifyIntent input ∧ Going s') (fun _ _ => True) s.opened := by
        refine wp_beginDrive env (fun _ => trivial) (fun _ _ _ _ _ _ => trivial) ?_
        exact fun idle _ s' begun => ⟨rfl, begun_going env idle begun⟩
      exact wp_mono (wp_and starts ((carried_beginDrive env input).wp s.opened))
        (fun _ _ both => ⟨both.1.1, both.1.2, both.2⟩) (fun _ _ both => both.2)
    · intro s' held
      exact wp_mono (wp_and (round_going env _ held.1) (round_carried env held.1))
        (fun _ _ both => ⟨both.1, Carried.framing.trans held.2 both.2⟩)
        (fun _ _ both => Carried.framing.trans held.2 both.2)
    · exact fun s' held => held.2
    · intro s' held
      exact wp_mono ((carried_finishDrive env _).wp s')
        (fun _ _ final => Carried.framing.trans held final) (fun e _ _ => e.elim)
  obtain ⟨new, split, chained⟩ := carried
  rw [split]
  show Chained s.disk ((new ++ []).filterMap executed) _
  rw [List.append_nil]
  exact chained

/-! ## What was changed -/

/-- A proposal takes its path from the arguments of the call. -/
theorem buildProposal_path {root : Bytes} {call : ToolCallDone} {disk : Disk}
    {prop : Verify.EditProposal} (built : (buildProposal root call disk).1 = .ok prop) :
    ∃ args, Util.parseJson call.inputJson = .ok args ∧
      args.findString (str "path") = some prop.path := by
  unfold buildProposal at built
  split at built
  · cases built
  · next args parsed =>
      split at built
      · cases built
      · next path checked =>
          obtain ⟨found, -⟩ := proposalPath_ok checked
          split at built
          · split at built
            · cases built
            · cases built
              exact ⟨args, parsed, found⟩
          · split at built
            · split at built
              · cases built
              · cases built
                exact ⟨args, parsed, found⟩
            · cases built

/-- The names a call can touch are those of its proposal. -/
theorem target_of_names {root : Bytes} {call : ToolCallDone} {disk : Disk}
    {prop : Verify.EditProposal} {id : FileId}
    (built : (buildProposal root call disk).1 = .ok prop)
    (names : Tools.Names root (invocationOf call).argsJson id) :
    ∃ target, Tools.resolveInSandbox root prop.path = some target ∧
      id ∈ Tools.namesBeside target := by
  obtain ⟨args, parsed, path⟩ := buildProposal_path built
  obtain ⟨args', path', target, read, found, resolved, member⟩ := names
  have nonempty : call.inputJson ≠ [] := by
    rintro empty
    rw [empty] at parsed
    cases parsed
  have same : Tools.readArgs call.inputJson = .ok args := (if_neg nonempty).trans parsed
  cases same.symm.trans read
  cases path.symm.trans found
  exact ⟨target, resolved, member⟩

/-- A tool that changes no file. -/
def Harmless (tool : Tools.Tool) : Prop :=
  ∀ asked inv canceled d, (tool.run asked inv canceled d).2.node = d.node

/-- The only tools that write are the two built-in ones over a root; every other tool writes
nothing, or is denied. -/
def WritesThroughBuiltIns (root : Bytes) (reg : Tools.ToolRegistry) (gate : Tools.Gate) : Prop :=
  ∀ tool ∈ reg.tools,
    if tool.spec.category = .write then
      tool = Tools.fileWriteTool root ∨ tool = Tools.filePatchTool root
    else Harmless tool ∨ gate.policyFor tool.spec.category = .deny

theorem policy_of_permit {gate : Tools.Gate} {reg : Tools.ToolRegistry} {asked : Nat}
    {name : Bytes} {inv : Tools.Invocation} {tool : Tools.Tool}
    (permitted : gate.permit reg asked name inv = .ok tool) :
    gate.policyFor tool.spec.category ≠ .deny := by
  intro denied
  unfold Tools.Gate.permit at permitted
  split at permitted
  · cases permitted
  · dsimp only at permitted
    split at permitted
    · next allowed =>
        cases permitted
        unfold Tools.Gate.check at allowed
        rw [denied] at allowed
        cases allowed
    · cases permitted

/-- **A file that a drive has changed was named by a proposal that passed the gate**: it is the
target of the proposal of a write, its shadow, or the temporary file of either. -/
theorem changed_was_vetted (fuel : Nat) (input : Bytes) (s : Sys P) {reg : Tools.ToolRegistry}
    {gate : Tools.Gate} (tools : env.opts.tools = some reg)
    (permission : env.opts.permission = some gate)
    (builtIn : WritesThroughBuiltIns env.opts.verifyCtx.workspaceRoot reg gate) {id : FileId}
    (changed : (drive env fuel input s).2.disk.node id ≠ s.disk.node id) :
    ∃ prop results target, .gate prop results ∈ (drive env fuel input s).2.log ∧
      (∀ r ∈ results, r.pass = true) ∧
      Tools.resolveInSandbox env.opts.verifyCtx.workspaceRoot prop.path = some target ∧
      id ∈ Tools.namesBeside target := by
  obtain ⟨⟨before, after⟩, step, differs⟩ :=
    (drive_carried env fuel input s).exists_change changed
  obtain ⟨e, member, same⟩ := List.mem_filterMap.mp step
  have disciplined := drive_disciplined env fuel input s
  obtain ⟨later, past, split⟩ := List.append_of_mem member
  rw [split] at disciplined ⊢
  cases e with
  | execute spec inv before' result after' =>
      cases same
      obtain ⟨earlier, tool, rfl, execution⟩ := disciplined.at
      obtain ⟨reg', gate', asked, tools', permission', permitted⟩ := execution.permitted
      cases tools.symm.trans tools'
      cases permission.symm.trans permission'
      obtain ⟨runs, canceled, ran⟩ := execution.ran
      have inTools := Tools.ToolRegistry.mem_of_find (Tools.Gate.find_of_permit permitted)
      have kind := builtIn tool inTools
      have moved : (tool.run runs inv canceled before).2.node id ≠ before.node id := by
        rw [ran]
        exact differs
      by_cases writes : tool.spec.category = .write
      · rw [if_pos writes] at kind
        have names : Tools.Names env.opts.verifyCtx.workspaceRoot inv.argsJson id := by
          rcases kind with rfl | rfl
          · exact Tools.names_of_fileWrite_changes moved
          · exact Tools.names_of_filePatch_changes moved
        rw [show later ++ .execute spec inv before result after :: .permission inv :: earlier =
          (later ++ [.execute spec inv before result after]) ++ .permission inv :: earlier by simp]
          at disciplined
        obtain ⟨call, tool', dispatch⟩ := disciplined.at
        obtain ⟨reg', tools', found'⟩ := dispatch.registered
        cases tools.symm.trans tools'
        have invocation := dispatch.invocation
        subst invocation
        have same : tool' = tool :=
          Option.some.inj (found'.symm.trans (Tools.Gate.find_of_permit permitted))
        subst same
        obtain ⟨prop, ⟨disk, built⟩, checkers, runs', begun, early, _, _, gated, passing⟩ :=
          dispatch.vetted writes
        obtain ⟨target, resolved, beside⟩ := target_of_names built names
        refine ⟨prop, _, target, ?_, passing, resolved, beside⟩
        refine List.mem_append_right _ (List.mem_cons_of_mem _ (List.mem_cons_of_mem _ ?_))
        exact gated.mem List.mem_cons_self
      · rw [if_neg writes] at kind
        rcases kind with harmless | denied
        · exact absurd (congrFun (harmless _ _ _ _) id) moved
        · exact absurd denied (policy_of_permit permitted)
  | _ => cases same

theorem writesThroughBuiltIns_writeTools {gate : Tools.Gate} :
    WritesThroughBuiltIns (str "/w") writeTools gate := by
  intro tool member
  obtain rfl := List.mem_singleton.mp member
  exact (if_pos rfl).mpr (.inl rfl)

/-- Asked to fix something, the agent leaves a file it was told to write. -/
theorem changed_was_vetted_fix :
    ∃ prop results target,
      .gate prop results ∈ (drive writeEnv 3 (str "fix it") scriptedStart).2.log ∧
      (∀ r ∈ results, r.pass = true) ∧
      Tools.resolveInSandbox (str "/w") prop.path = some target ∧
      FileId.of (str "/w/a") ∈ Tools.namesBeside target :=
  changed_was_vetted writeEnv 3 (str "fix it") scriptedStart rfl rfl
    writesThroughBuiltIns_writeTools (by decide +kernel)

end Opencodepp.Agent
