import Opencodepp.Agent.Lifecycle

/-!
# The budget of a drive

The round loop has no limit of its own.  It ends because every completed round costs
tokens, the tokens used never shrink, and a round is only started while some are left.
The measure is kept by the books (`Paid`), and what it bounds is read off the log
(`Ledger`): the completed rounds, and the attempts they were made with.
-/

set_option autoImplicit false

namespace Opencodepp.Agent

open Opencodepp.Core
open Opencodepp.Library
open Opencodepp.Library.Program
open Opencodepp.Library.Trace
open Opencodepp.Msg
open Opencodepp.Provider

variable {P : Provider} (env : Env)

/-! ## Counting -/

/-- The number of rounds that got a reply. -/
def completed (log : List Ev) : Nat :=
  log.countP fun
    | .reply _ _ => true
    | _ => false

/-- The tokens a reply reports. -/
def reported (acc : Accum) : Nat := acc.usage.inputTokens.toNat + acc.usage.outputTokens.toNat

/-- Every completed round reports at least one token and fewer than `2 ^ 32`. -/
def Metered (log : List Ev) : Prop :=
  ∀ history acc, .reply history acc ∈ log → 1 ≤ reported acc ∧ reported acc < 2 ^ 32

instance (log : List Ev) : Decidable (Metered log) :=
  decidable_of_iff
    (log.all fun
      | .reply _ acc => 1 ≤ reported acc && reported acc < 2 ^ 32
      | _ => true) (by
    rw [List.all_eq_true]
    constructor
    · intro all history acc member
      simpa using all _ member
    · intro metered e member
      cases e <;> try rfl
      simpa using metered _ _ member)

/-- The cap of a task. -/
def cap : Nat := (budgetCap env.session).toNat

/-- Neither an attempt nor a reply. -/
def Uncounted : Ev → Prop
  | .attempt _ _ | .reply _ _ => False
  | _ => True

/-- What a log within the budget satisfies; `extra` is 1 while a round is under way. -/
structure Ledger (extra : Nat) (log : List Ev) : Prop where
  rounds : completed log ≤ cap env
  started : attempts log ≤ (completed log + extra) * maxAttempts env
  inBudget : ∀ state used, .attempt state used ∈ log → used.toNat < cap env

theorem Metered.earlier {A : Ev → Prop} {past now : List Ev} (ext : Extends A past now)
    (metered : Metered now) : Metered past :=
  fun history acc member => metered history acc (ext.mem member)

theorem completed_extend {A : Ev → Prop} {past now : List Ev} (ext : Extends A past now)
    (other : ∀ history acc, ¬A (.reply history acc)) : completed now = completed past := by
  refine ext.countP _ fun e inA => ?_
  cases e <;> first | rfl | exact absurd inA (other _ _)

theorem Ledger.extend {A : Ev → Prop} {extra : Nat} {past now : List Ev}
    (ledger : Ledger env extra past) (ext : Extends A past now)
    (uncounted : ∀ e, A e → Uncounted e) : Ledger env extra now := by
  have sameRounds : completed now = completed past :=
    completed_extend ext fun _ _ new => uncounted _ new
  have sameAttempts : attempts now = attempts past := by
    refine ext.countP _ fun e inA => ?_
    cases e <;> first | rfl | exact (uncounted _ inA).elim
  refine ⟨sameRounds ▸ ledger.rounds, ?_, fun state used member => ?_⟩
  · rw [sameRounds, sameAttempts]
    exact ledger.started
  · rcases ext.mem_or member with inPast | new
    · exact ledger.inBudget state used inPast
    · exact (uncounted _ new).elim

theorem Ledger.open_ {log : List Ev} (ledger : Ledger env 0 log) : Ledger env 1 log where
  rounds := ledger.rounds
  started := Nat.le_trans ledger.started (Nat.mul_le_mul_right _ (Nat.le_succ _))
  inBudget := ledger.inBudget

/-- A call of the provider made with tokens left. -/
theorem Ledger.called {tools : List ToolSpec} {s s' : Sys P} (ledger : Ledger env 0 s.log)
    (called : Called tools (maxAttempts env) s s')
    (left : s.session.tokensUsed.toNat < cap env) : Ledger env 1 s'.log := by
  have sameRounds : completed s'.log = completed s.log :=
    completed_extend called.calm.log fun _ _ net => net
  refine ⟨sameRounds ▸ ledger.rounds, ?_, fun state used member => ?_⟩
  · have before := ledger.started
    have made := called.made
    rw [sameRounds, Nat.add_mul, Nat.one_mul]
    rw [Nat.add_zero] at before
    omega
  · rcases called.calm.log.mem_or member with inPast | new
    · exact ledger.inBudget state used inPast
    · have same : used = s.session.tokensUsed := new
      rw [same]
      exact left

/-! ## Accounting -/

/-- The completed rounds were paid for. -/
def Paid (start : Nat) (s : Sys P) : Prop :=
  start + completed s.log ≤ s.session.tokensUsed.toNat

/-- The sum never wraps: the cap is a 32-bit number, and so is what one round adds. -/
theorem accountTokens_toNat {used : UInt64} {acc : Accum} (left : used.toNat < cap env)
    (some_ : 1 ≤ reported acc) (few : reported acc < 2 ^ 32) :
    (accountTokens used acc.usage).toNat = used.toNat + reported acc := by
  unfold reported at some_ few ⊢
  have small : used.toNat < 2 ^ 32 := Nat.lt_trans left (UInt32.toNat_lt _)
  have charged : acc.usage.inputTokens ≠ 0 ∨ acc.usage.outputTokens ≠ 0 := by
    by_contra free
    have none_ : acc.usage.inputTokens = 0 ∧ acc.usage.outputTokens = 0 := by
      simpa only [not_or, not_not] using free
    rw [none_.1, none_.2] at some_
    exact absurd some_ (by decide)
  unfold accountTokens
  rw [if_pos (by simpa using charged), UInt64.toNat_add, UInt64.toNat_add]
  omega

theorem lt_cap_of_not_exhausted {used : UInt64}
    (left : budgetExhausted env.session used = false) : used.toNat < cap env := by
  unfold budgetExhausted budgetRemaining at left
  unfold cap
  have positive : (budgetCap env.session).toNat - used.toNat ≠ 0 := by simpa using left
  omega

/-- The books between two rounds. -/
def Solvent (start : Nat) (s : Sys P) : Prop :=
  Metered s.log → Ledger env 0 s.log ∧ Paid start s

/-- The reply of a round is paid for. -/
theorem Solvent.replied {tools : List ToolSpec} {start : Nat} {s₁ s₂ : Sys P}
    (called : Called tools (maxAttempts env) s₁ s₂)
    (left : s₁.session.tokensUsed.toNat < cap env) (solvent : Solvent env start s₁) :
    Solvent env start (s₂.replied env) := by
  intro metered
  have before : Metered s₂.log :=
    Metered.earlier (A := fun _ => True) (.single trivial s₂.log) metered
  obtain ⟨ledger, paid⟩ := solvent (before.earlier called.calm.log)
  have after := ledger.called env called left
  obtain ⟨some_, few⟩ := metered _ s₂.acc (List.mem_cons_self ..)
  have counted : completed (s₂.replied env).log = completed s₂.log + 1 :=
    List.countP_cons_of_pos rfl
  have sameRounds : completed s₂.log = completed s₁.log :=
    completed_extend called.calm.log fun _ _ net => net
  have tokens : (s₂.replied env).session.tokensUsed.toNat =
      s₁.session.tokensUsed.toNat + reported s₂.acc := by
    rw [← called.calm.tokensUsed] at left ⊢
    exact accountTokens_toNat env left some_ few
  unfold Paid at paid
  refine ⟨⟨?_, ?_, fun state used member => ?_⟩, ?_⟩
  · omega
  · rw [counted]
    have sameAttempts : attempts (s₂.replied env).log = attempts s₂.log :=
      List.countP_cons_of_neg (by simp)
    rw [sameAttempts]
    exact after.started
  · rcases List.mem_cons.mp member with impossible | earlier
    · cases impossible
    · exact after.inBudget state used earlier
  · unfold Paid
    omega

theorem Solvent.extend {A : Ev → Prop} {start : Nat} {s s' : Sys P}
    (solvent : Solvent env start s)
    (tokens : s'.session.tokensUsed = s.session.tokensUsed) (ext : Extends A s.log s'.log)
    (uncounted : ∀ e, A e → Uncounted e) : Solvent env start s' := by
  intro metered
  obtain ⟨ledger, paid⟩ := solvent (metered.earlier ext)
  refine ⟨ledger.extend env ext uncounted, ?_⟩
  have sameRounds : completed s'.log = completed s.log :=
    completed_extend ext fun _ _ new => uncounted _ new
  unfold Paid at paid ⊢
  rw [sameRounds, tokens]
  exact paid

theorem Solvent.close {start : Nat} {s : Sys P} (solvent : Solvent env start s) :
    Metered s.log → Ledger env 1 s.log :=
  fun metered => (solvent metered).1.open_

/-! ## Rounds -/

theorem uncounted_of_moveEv {e : Ev} (move : MoveEv e) : Uncounted e := by
  cases e <;> trivial

theorem uncounted_of_frontEv {tools : List ToolSpec} {e : Ev} (front : FrontEv tools e) :
    Uncounted e := by
  cases e <;> trivial

theorem uncounted_of_toolEv {e : Ev} (inTool : ToolEv e) : Uncounted e := by
  cases e <;> trivial

theorem uncounted_of_reports {phase : String} {state : AgentState} {e : Ev}
    (reports : Reports phase state e) : Uncounted e := by
  cases e <;> trivial

/-- **One round** completes one reply and stays solvent, or is the last one. -/
theorem round_solvent (plan : IntentPlan) {start : Nat} {s : Sys P} (going : Going s)
    (solvent : Solvent env start s) :
    wp (round env plan)
      (fun _ s' => completed s'.log = completed s.log + 1 ∧ Solvent env start s')
      (fun _ s' => Metered s'.log → Ledger env 1 s'.log) s := by
  refine wp_round env going.resting ?_ ?_ ?_
  · intro _ s' books _ log
    have polled : Uncounted (.poll .roundTop true) := trivial
    have kept : Solvent env start s' :=
      solvent.extend env (congrArg Books.tokensUsed books) (log ▸ .single polled s.log)
        fun _ uncounted => uncounted
    exact kept.close env
  · intro _ s' e prepared
    have kept : Solvent env start s' :=
      solvent.extend env prepared.calm.tokensUsed prepared.calm.log
        fun _ => uncounted_of_frontEv
    exact kept.close env
  · intro _ s₁ budget prepared left _
    have solvent₁ : Solvent env start s₁ :=
      solvent.extend env prepared.calm.tokensUsed prepared.calm.log
        fun _ => uncounted_of_frontEv
    have rounds₁ : completed s₁.log = completed s.log :=
      completed_extend prepared.calm.log fun _ _ front => front
    have left₁ : s₁.session.tokensUsed.toNat < cap env := by
      rw [prepared.calm.tokensUsed]
      exact lt_cap_of_not_exhausted env left
    refine wp_mono (oneRound_spec env _ budget (.inl prepared.state))
      (fun _ s₂ answered => ?_) (fun e s₂ called metered => ?_)
    · have solvent₂ := solvent₁.replied env answered.1 left₁
      have rounds₂ : completed (s₂.replied env).log = completed s.log + 1 := by
        rw [← rounds₁, ← completed_extend answered.1.calm.log fun _ _ net => net]
        exact List.countP_cons_of_pos rfl
      refine wp_settleReply env answered.2 ?_ ?_ ?_
      · intro _
        have dropped : Uncounted (.dropped s₂.acc.calls) := trivial
        have kept : Solvent env start
            { s₂.replied env with
              result.ec := ⟨.eToolReject, 0⟩
              log := .dropped s₂.acc.calls :: (s₂.replied env).log } :=
          solvent₂.extend env rfl (.single dropped _) fun _ uncounted => uncounted
        exact kept.close env
      · intro _ s₃ calm _
        have kept : Solvent env start s₃ :=
          solvent₂.extend env calm.tokensUsed calm.log fun e ending => by
            cases e <;> trivial
        exact kept.close env
      · intro s₃ calm toolPhase
        have success : s₃.result.ec = .success := by
          rw [calm.result]
          show s₂.result.ec = .success
          rw [answered.1.calm.result, prepared.calm.result, going.ec]
        refine wp_mono (toolLoop_spec env _ (.inl toolPhase) success) (fun _ s₄ worked => ?_)
          (fun _ _ failed => failed)
        intro s₅ quiet
        have ext : Extends Uncounted (s₂.replied env).log s₅.log :=
          ((calm.log.mono fun _ => uncounted_of_moveEv).trans
            (worked.log.mono fun _ => uncounted_of_toolEv)).trans
            (quiet.log.mono fun _ => uncounted_of_reports)
        have kept : Solvent env start s₅ :=
          solvent₂.extend env ((congrArg Books.tokensUsed quiet.books).trans
            (worked.tokensUsed.trans calm.tokensUsed)) ext fun _ uncounted => uncounted
        have rounds₃ : completed s₅.log = completed s.log + 1 :=
          (completed_extend ext fun _ _ uncounted => uncounted).trans rounds₂
        exact ⟨fun _ => kept.close env, fun _ _ => kept.close env, fun _ _ => ⟨rounds₃, kept⟩⟩
    · have before : Metered s₁.log := metered.earlier called.calm.log
      have ledger : Ledger env 1 s₂.log := (solvent₁ before).1.called env called left₁
      exact ledger

/-! ## Drives -/

/-- No round has been made when a drive begins. -/
theorem begun_uncounted {input : Bytes} {s s' : Sys P} (begun : Begun env input s.opened.reset s') :
    Extends Uncounted [] s'.log := by
  have reset : Extends Uncounted [] s.opened.reset.log := by
    unfold Sys.reset
    split
    · exact .single trivial []
    · exact .refl _ []
  refine reset.trans (begun.log.mono fun e start => ?_)
  cases e <;> trivial

theorem reset_tokensUsed (s : Sys P) :
    s.opened.reset.session.tokensUsed = s.session.tokensUsed := by
  unfold Sys.reset
  split <;> rfl

/-- The first round of a drive starts solvent. -/
theorem begun_solvent {input : Bytes} {s s' : Sys P}
    (begun : Begun env input s.opened.reset s') :
    Solvent env s.session.tokensUsed.toNat s' := by
  intro _
  have uncounted := begun_uncounted env begun
  have empty : Ledger env 0 [] :=
    ⟨Nat.zero_le _, Nat.zero_le _, fun _ _ member => absurd member List.not_mem_nil⟩
  refine ⟨empty.extend env uncounted fun _ class_ => class_, ?_⟩
  unfold Paid
  rw [completed_extend uncounted fun _ _ class_ => class_, begun.tokensUsed, reset_tokensUsed]
  exact Nat.le_refl _

/-- The rounds of a drive keep the books. -/
theorem round_books {start : Nat} (plan : IntentPlan) (s : Sys P)
    (held : Going s ∧ Solvent env start s) :
    wp (round env plan)
      (fun _ s' => (Going s' ∧ Solvent env start s') ∧ completed s'.log = completed s.log + 1)
      (fun _ s' => Metered s'.log → Ledger env 1 s'.log) s :=
  wp_mono (wp_and (round_going env plan held.1) (round_solvent env plan held.1 held.2))
    (fun _ _ post => ⟨⟨post.1, post.2.2⟩, post.2.1⟩) (fun _ _ post => post.2)

theorem drive_ledger (fuel : Nat) (input : Bytes) (s : Sys P) :
    Metered (drive env fuel input s).2.log → Ledger env 1 (drive env fuel input s).2.log := by
  refine drive_rule env (I := fun s' => Going s' ∧ Solvent env s.session.tokensUsed.toNat s')
    (E := fun s' => Metered s'.log → Ledger env 1 s'.log)
    (F := fun _ s' => Metered s'.log → Ledger env 1 s'.log) ?_ ?_ ?_ ?_ fuel
  · have none_ {log : List Ev} (ext : Extends Uncounted [] log) : Ledger env 1 log :=
      (⟨Nat.zero_le _, Nat.zero_le _, fun _ _ member => absurd member List.not_mem_nil⟩ :
        Ledger env 1 []).extend env ext fun _ class_ => class_
    have reset : Extends Uncounted [] s.opened.reset.log := by
      unfold Sys.reset
      split
      · exact .single trivial []
      · exact .refl _ []
    refine wp_beginDrive env ?_ ?_ ?_
    · intro _ _
      exact none_ reset
    · intro _ _ s' _ _ log _
      exact none_ (log ▸ .cons trivial reset)
    · intro idle _ s' begun
      exact ⟨rfl, begun_going env idle begun, begun_solvent env begun⟩
  · intro s' held
    exact wp_mono (round_books env _ s' held) (fun _ _ post => post.1) (fun _ _ post => post)
  · intro s' held
    exact held.2.close env
  · intro s' ledger
    refine wp_mono (finishDrive_spec env (E := fun _ _ => False) _) (fun _ s'' finished => ?_)
      (fun _ _ impossible => impossible)
    intro metered
    refine (ledger (metered.earlier finished.log)).extend env finished.log fun e final => ?_
    cases e <;> trivial

/-- A drive that has not returned has completed every round it was given. -/
theorem completed_of_running {fuel : Nat} {input : Bytes} {s : Sys P}
    (running : (drive env fuel input s).1 = none) :
    completed (drive env fuel input s).2.log = fuel := by
  have starts : wp (beginDrive env input)
      (fun plan s' => plan = classifyIntent input ∧ (Going s' ∧
        Solvent env s.session.tokensUsed.toNat s') ∧ completed s'.log = 0)
      (fun _ _ => True) s.opened := by
    refine wp_beginDrive env (fun _ => trivial) (fun _ _ _ _ _ _ => trivial) ?_
    intro idle _ s' begun
    exact ⟨rfl, ⟨begun_going env idle begun, begun_solvent env begun⟩,
      completed_extend (begun_uncounted env begun) fun _ _ class_ => class_⟩
  rcases begin_ : beginDrive env input s.opened with ⟨e | plan, s₁⟩
  · simp [drive, begin_] at running
  · obtain ⟨rfl, held, none_⟩ := wp_of_returns starts begin_
    rcases loop : iterate (round env (classifyIntent input)) fuel s₁ with ⟨_ | _, s₂⟩
    · have rounds := iterate_rounds
        (I := fun s' => Going s' ∧ Solvent env s.session.tokensUsed.toNat s')
        (n := fun s' => completed s'.log)
        (fun s' held => wp_mono (round_books env (classifyIntent input) s' held)
          (fun _ _ post => post) (fun _ _ _ => trivial)) fuel s₁ held (by rw [loop])
      have ran : drive env fuel input s = (none, s₂) := by simp only [drive, begin_, loop]
      rw [loop, none_, Nat.zero_add] at rounds
      rw [ran]
      exact rounds
    · simp [drive, begin_, loop] at running

/-- **A drive stays within its budget.**  When every completed round reports between one
and `2 ^ 32` tokens, no attempt is started with the cap used up, at most as many rounds are
completed as the cap has tokens, and at most one more round's worth of attempts is made;
and the drive has returned once it was given more rounds than that. -/
theorem drive_within_budget (fuel : Nat) (input : Bytes) (s : Sys P)
    (metered : Metered (drive env fuel input s).2.log) :
    (∀ state used, .attempt state used ∈ (drive env fuel input s).2.log →
      used.toNat < (budgetCap env.session).toNat) ∧
    completed (drive env fuel input s).2.log ≤ (budgetCap env.session).toNat ∧
    attempts (drive env fuel input s).2.log ≤
      (completed (drive env fuel input s).2.log + 1) * max 1 env.opts.retry.maxRetries.toNat ∧
    ((budgetCap env.session).toNat < fuel → ∃ r, (drive env fuel input s).1 = some r) := by
  have ledger := drive_ledger env fuel input s metered
  refine ⟨ledger.inBudget, ledger.rounds, ledger.started, fun enough => ?_⟩
  rcases returned : (drive env fuel input s).1 with _ | r
  · have counted := completed_of_running env returned
    have rounds := ledger.rounds
    unfold cap at rounds
    omega
  · exact ⟨r, rfl⟩

theorem drive_within_budget_hello :
    attempts (drive (scriptedEnv .empty [lostStream, textReply "hi"] []) 3 (str "explain x")
      scriptedStart).2.log ≤ (1 + 1) * 8 := by
  have budget := (drive_within_budget (scriptedEnv .empty [lostStream, textReply "hi"] []) 3
    (str "explain x") scriptedStart (by decide +kernel)).2.2.1
  have rounds : completed (drive (scriptedEnv .empty [lostStream, textReply "hi"] []) 3
    (str "explain x") scriptedStart).2.log = 1 := by decide +kernel
  rw [rounds] at budget
  exact budget

end Opencodepp.Agent
