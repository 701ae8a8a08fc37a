import Opencodepp.Prompt.Decisions

/-!
# The budget of a plan

The assembly charges in four places: the workspace entries each against what the tools leave of
the cap, the older messages against what the system text leaves, and the recent messages and the
injected schema against nothing.  The plan stays within its cap all the same where every selection
of older messages that fits beside the system text also fits beside the first tier
(`budget_kept_of_room`), and `newest_kept_iff` says for which inputs the older messages it keeps
are the newest.
-/

set_option autoImplicit false

namespace Opencodepp.Prompt

open Opencodepp.Core
open Opencodepp.Library
open Opencodepp.Msg

/-! ## Costs -/

/-- The workspace entries in the order in which they are charged. -/
def workspaceEntries (input : ContextInput) : List EnvEntry := input.env ++ input.repo

/-- What the tools and the floor of the newest message leave of the cap. -/
def tierRoom (input : ContextInput) : Nat :=
  resolveCap input - (newestUserFloor + toolTokens input)

/-- What the messages cost that are always kept. -/
def recentTokens (input : ContextInput) : Nat :=
  let recent := input.messages.drop (tierOne input)
  Admission.total messageTokens recent.dropLast + (recent.getLast?.map sentTokens).getD 0

/-- The cost of the first tier: system templates, tools, and the messages always kept. -/
def tierOneCost (input : ContextInput) (core : Bytes) : Nat :=
  estimateTokens core % 2 ^ 32 + toolTokens input + recentTokens input

/-- The entries that fit what the tools leave, each alone. -/
def fittingEntries (input : ContextInput) : List EnvEntry :=
  if input.edgeMode then []
  else Admission.fitting entryTokens (tierRoom input) 0 (workspaceEntries input)

/-- The system templates with the entries that fit. -/
def headText (input : ContextInput) (core : Bytes) : Bytes :=
  core ++ textsOf (fittingEntries input)

/-- What older messages are admitted beside: the system text and the tools. -/
def besideTokens (input : ContextInput) (core : Bytes) : Nat :=
  estimateTokens (headText input core) % 2 ^ 32 + toolTokens input

/-- What is charged besides the older messages: the system message as it is sent, the tools and
the messages that are always kept. -/
def firstTokens (input : ContextInput) (core : Bytes) : Nat :=
  estimateTokens (injectSchema input (headText input core)) % 2 ^ 32 + toolTokens input +
    recentTokens input

/-- What a plan may cost: the cap, or the first tier when that alone is dearer. -/
def allowance (input : ContextInput) (core : Bytes) : Nat :=
  max (resolveCap input) (tierOneCost input core)

theorem resolveCap_lt (input : ContextInput) : resolveCap input < 2 ^ 32 := by
  have available := input.availableTokens.toNat_lt
  have hard := input.hardCapTokens.toNat_lt
  unfold resolveCap newestUserFloor
  dsimp only
  split_ifs <;> omega

/-- Without a wrap the budget of the entries is what is left. -/
theorem tierBudget_eq {input : ContextInput}
    (unwrapped : newestUserFloor + toolTokens input ≤ resolveCap input) :
    tierBudget input = tierRoom input := by
  have below := resolveCap_lt input
  unfold tierBudget tierRoom
  omega

/-- Without a wrap the system text has the entries that fit. -/
theorem text_systemText {input : ContextInput}
    (unwrapped : newestUserFloor + toolTokens input ≤ resolveCap input) (core : Bytes) :
    (systemText input core).text = headText input core := by
  have kept (entries : List EnvEntry) : keptOf (decideEntries input entries) =
      if input.edgeMode then []
      else Admission.fitting entryTokens (tierRoom input) 0 entries := by
    induction entries with
    | nil => cases input.edgeMode <;> rfl
    | cons e rest inductionHypothesis =>
        show keptOf ((e, entryReason input e) :: decideEntries input rest) = _
        unfold entryReason
        rw [tierBudget_eq unwrapped]
        split
        · next edge => rw [keptOf_cons_some, inductionHypothesis, if_pos edge]
        · next plain =>
            unfold Admission.fitting at inductionHypothesis ⊢
            rw [if_neg plain] at inductionHypothesis
            split
            · next exceeds =>
                rw [keptOf_cons_some, inductionHypothesis, List.filter_cons_of_neg (by simpa)]
            · next fits =>
                rw [keptOf_cons_none, inductionHypothesis,
                  List.filter_cons_of_pos (by simpa using fits)]
  rw [systemText_eq]
  unfold headText fittingEntries workspaceEntries
  rw [kept, kept]
  split
  · rfl
  · unfold Admission.fitting
    rw [List.filter_append]

/-- What a plan costs: the first charges, and the older messages that are taken beside the system
text and the tools. -/
theorem estimatedTokens_eq {input : ContextInput} (some_ : input.messages ≠ []) {core : Bytes}
    (unwrapped : newestUserFloor + toolTokens input ≤ resolveCap input) :
    (contextPlan input core).estimatedTokens =
      (firstTokens input core + Admission.total messageTokens (Admission.taken
        (Admission.verdicts messageTokens (resolveCap input) (besideTokens input core)
          (olderMessages input)))) % 2 ^ 32 := by
  obtain ⟨recent, newest, split⟩ := exists_newest some_
  have costs : recentTokens input =
      Admission.total messageTokens recent + sentTokens newest := by
    unfold recentTokens
    dsimp only
    rw [split, List.dropLast_concat, List.getLast?_concat]
    rfl
  show ((messageWindow input (systemText input core)).total + _ + _) % 2 ^ 32 = _
  rw [messageWindow_eq split]
  unfold firstTokens olderVerdicts fixedTokens besideTokens
  rw [text_systemText unwrapped, costs]
  dsimp only
  congr 1
  omega

/-! ## The cap -/

/-- The plan stays within its allowance, the unsigned budget of the entries is the difference it
stands for, and the entries are charged against it one beside the other. -/
structure BudgetKept (input : ContextInput) (core : Bytes) (plan : ContextPlan) : Prop where
  bound : plan.estimatedTokens ≤ allowance input core
  unwrapped : (tierBudget input : Int) = resolveCap input - newestUserFloor - toolTokens input
  charged : input.edgeMode = false →
    ((workspaceEntries input).map fun e => (e, (entryReason input e).isNone)) =
      Admission.verdicts entryTokens (tierRoom input) 0 (workspaceEntries input)

/-- The entries are charged as they should be: tools and floor fit the cap, and the entries that
fit alone fit together. -/
structure EntriesFit (input : ContextInput) : Prop where
  tools : newestUserFloor + toolTokens input ≤ resolveCap input
  entries : input.edgeMode = false →
    Admission.total entryTokens
      (Admission.fitting entryTokens (tierRoom input) 0 (workspaceEntries input)) ≤ tierRoom input

/-- There is room for the history: every selection of older messages that fits the cap beside the
system text and the tools fits the allowance beside the first charges. -/
structure HistoryFits (input : ContextInput) (core : Bytes) : Prop where
  first : firstTokens input core ≤ allowance input core
  older : ∀ chosen, chosen.Sublist (olderMessages input) →
    besideTokens input core + Admission.total messageTokens chosen ≤ resolveCap input →
      firstTokens input core + Admission.total messageTokens chosen ≤ allowance input core

theorem unwrapped_iff (input : ContextInput) :
    (tierBudget input : Int) = resolveCap input - newestUserFloor - toolTokens input ↔
      newestUserFloor + toolTokens input ≤ resolveCap input := by
  have below := resolveCap_lt input
  unfold tierBudget
  constructor
  · intro same
    by_contra dear
    omega
  · intro fits
    omega

/-- Each entry is charged alone. -/
theorem charged_iff {input : ContextInput} (plain : input.edgeMode = false)
    (unwrapped : newestUserFloor + toolTokens input ≤ resolveCap input) :
    ((workspaceEntries input).map fun e => (e, (entryReason input e).isNone)) =
        Admission.verdicts entryTokens (tierRoom input) 0 (workspaceEntries input) ↔
      Admission.total entryTokens
        (Admission.fitting entryTokens (tierRoom input) 0 (workspaceEntries input)) ≤
          tierRoom input := by
  have alone : ∀ e : EnvEntry,
      (entryReason input e).isNone = decide (0 + entryTokens e ≤ tierRoom input) := by
    intro e
    unfold entryReason
    rw [plain, tierBudget_eq unwrapped, Nat.zero_add, if_neg Bool.false_ne_true]
    split
    · rename_i exceeds
      exact (decide_eq_false (Nat.not_le.mpr exceeds)).symm
    · rename_i fits
      exact (decide_eq_true (Nat.not_lt.mp fits)).symm
  have same : (workspaceEntries input).map
        (fun e => (e, decide (0 + entryTokens e ≤ tierRoom input))) =
          Admission.verdicts entryTokens (tierRoom input) 0 (workspaceEntries input) ↔
      0 + Admission.total entryTokens
        (Admission.fitting entryTokens (tierRoom input) 0 (workspaceEntries input)) ≤
          tierRoom input :=
    Admission.alone_iff (Nat.zero_le (tierRoom input))
  rw [Nat.zero_add] at same
  rw [← same]
  simp only [alone]

/-- What is promised of the entries is kept exactly where they fit. -/
theorem entriesFit_iff (input : ContextInput) :
    ((tierBudget input : Int) = resolveCap input - newestUserFloor - toolTokens input ∧
      (input.edgeMode = false →
        ((workspaceEntries input).map fun e => (e, (entryReason input e).isNone)) =
          Admission.verdicts entryTokens (tierRoom input) 0 (workspaceEntries input))) ↔
      EntriesFit input := by
  rw [unwrapped_iff]
  exact ⟨fun both => ⟨both.1, fun plain => (charged_iff plain both.1).mp (both.2 plain)⟩,
    fun fit => ⟨fit.tools, fun plain => (charged_iff plain fit.tools).mpr (fit.entries plain)⟩⟩

/-- A plan is within its allowance where there is room for the history. -/
theorem bound_of_historyFits {input : ContextInput} (some_ : input.messages ≠ []) {core : Bytes}
    (unwrapped : newestUserFloor + toolTokens input ≤ resolveCap input)
    (fits : HistoryFits input core) :
    (contextPlan input core).estimatedTokens ≤ allowance input core := by
  rw [estimatedTokens_eq some_ unwrapped]
  refine (Nat.mod_le _ _).trans ?_
  refine Admission.taken_of_selections (motive := fun chosen =>
    firstTokens input core + Admission.total messageTokens chosen ≤ allowance input core) ?_
      fits.older
  exact fits.first

/-- Where all older messages are taken, and the cost of the plan fits 32 bits, the room is needed. -/
theorem historyFits_of_bound {input : ContextInput} (some_ : input.messages ≠ []) {core : Bytes}
    (unwrapped : newestUserFloor + toolTokens input ≤ resolveCap input)
    (all : besideTokens input core + Admission.total messageTokens (olderMessages input) ≤
      resolveCap input)
    (small : firstTokens input core + Admission.total messageTokens (olderMessages input) < 2 ^ 32)
    (bound : (contextPlan input core).estimatedTokens ≤ allowance input core) :
    HistoryFits input core := by
  rw [estimatedTokens_eq some_ unwrapped, Admission.taken_of_fits all,
    Nat.mod_eq_of_lt small] at bound
  refine ⟨(Nat.le_add_right _ _).trans bound, fun chosen sub _ => ?_⟩
  have less : Admission.total messageTokens chosen ≤
      Admission.total messageTokens (olderMessages input) := Admission.total_le_of_sublist sub
  omega

/-- **When the budget is kept.**  A plan costs at most the cap or its first tier, with entries
charged one beside the other, where the floor and the tools fit the cap, the entries that fit
alone fit together, and every selection of older messages that fits beside the system text and
the tools fits beside the first tier.  What is promised of the entries needs the first two; the
third is needed where all older messages fit. -/
theorem budget_kept_of_room {input : ContextInput} {plan : ContextPlan}
    (assembled : assembleContext input = .ok plan) :
    ∃ core, coreText input = some core ∧
      (EntriesFit input → HistoryFits input core → BudgetKept input core plan) ∧
      (BudgetKept input core plan → EntriesFit input) ∧
      (besideTokens input core + Admission.total messageTokens (olderMessages input) ≤
          resolveCap input →
        firstTokens input core + Admission.total messageTokens (olderMessages input) < 2 ^ 32 →
          BudgetKept input core plan → HistoryFits input core) := by
  obtain ⟨some_, core, found, rfl⟩ := assembleContext_eq_ok.mp assembled
  have needed (kept : BudgetKept input core (contextPlan input core)) : EntriesFit input :=
    (entriesFit_iff input).mp ⟨kept.unwrapped, kept.charged⟩
  refine ⟨core, found, fun entries history => ?_, needed, fun all small kept => ?_⟩
  · obtain ⟨unwrapped, charged⟩ := (entriesFit_iff input).mpr entries
    exact ⟨bound_of_historyFits some_ entries.tools history, unwrapped, charged⟩
  · exact historyFits_of_bound some_ (needed kept).tools all small kept.bound

/-- A message of six hundred words. -/
def longMessage (id : String) (role : Role) : Message :=
  ⟨str id, str "s", role, [], [.text (List.replicate 600 (str "a ")).flatten], 0⟩

/-- Two long messages of the user under a cap of a thousand tokens. -/
def crowdedInput : ContextInput :=
  { shortInput with
    messages := [longMessage "m1" .user, longMessage "m2" .user]
    availableTokens := 1000 }

/-- The older message is admitted before the newest is charged, and the plan is dearer than
both the cap and the first tier. -/
theorem crowded_exceeds :
    ¬BudgetKept crowdedInput (str "be brief\n") (contextPlan crowdedInput (str "be brief\n")) := by
  intro kept
  have exceeds : allowance crowdedInput (str "be brief\n") <
      (contextPlan crowdedInput (str "be brief\n")).estimatedTokens := by decide +kernel
  exact absurd kept.bound (Nat.not_le.mpr exceeds)

/-- A short input, with its workspace entry. -/
def roomyInput : ContextInput := { shortInput with edgeMode := false, recentAssistantTurns := 1 }

/-- The plan of the short input keeps its budget, with an entry and an older message. -/
theorem budget_kept_of_room_short :
    ∃ core, coreText roomyInput = some core ∧
      BudgetKept roomyInput core (contextPlan roomyInput (str "be brief\n")) ∧
      (olderMessages roomyInput).length = 1 ∧ (fittingEntries roomyInput).length = 1 := by
  have found : coreText roomyInput = some (str "be brief\n") := by decide +kernel
  have assembled : assembleContext roomyInput =
      .ok (contextPlan roomyInput (str "be brief\n")) :=
    assembleContext_eq_ok.mpr ⟨by decide, _, found, rfl⟩
  obtain ⟨core, found', kept, -, -⟩ := budget_kept_of_room assembled
  cases found.symm.trans found'
  refine ⟨_, found, kept ⟨by decide +kernel, fun _ => by decide +kernel⟩
    ⟨by decide +kernel, fun chosen sub fits => ?_⟩, by decide +kernel, by decide +kernel⟩
  have less : Admission.total messageTokens chosen ≤
      Admission.total messageTokens (olderMessages roomyInput) := Admission.total_le_of_sublist sub
  have whole : firstTokens roomyInput (str "be brief\n") +
      Admission.total messageTokens (olderMessages roomyInput) ≤
        allowance roomyInput (str "be brief\n") := by decide +kernel
  omega

/-! ## The newest messages -/

/-- **Which older messages are kept.**  The kept messages are the end of the history exactly when
no older message fits beside the system text and the tools, or all from the oldest that does fit
there together. -/
theorem newest_kept_iff {input : ContextInput} {plan : ContextPlan}
    (assembled : assembleContext input = .ok plan) :
    ∃ core recent newest, coreText input = some core ∧
      input.messages = olderMessages input ++ recent ++ [newest] ∧
      plan.messages.tail = Admission.taken (olderVerdicts input (systemText input core)) ++ recent ++
        [sentMessage newest] ∧
      (Admission.Newest (olderVerdicts input (systemText input core)) →
        Admission.taken (olderVerdicts input (systemText input core)) ++ recent ++ [newest] <:+
          input.messages) ∧
      (Admission.Newest (olderVerdicts input (systemText input core)) ↔
        let fixed := fixedTokens input (systemText input core)
        let fromFirst := Admission.fromFirst messageTokens (resolveCap input) fixed
          (olderMessages input)
        fromFirst = [] ∨ fixed + Admission.total messageTokens fromFirst ≤ resolveCap input) := by
  obtain ⟨some_, core, found, rfl⟩ := assembleContext_eq_ok.mp assembled
  obtain ⟨recent, newest, split⟩ := exists_newest some_
  have whole : input.messages = olderMessages input ++ recent ++ [newest] := by
    rw [List.append_assoc, ← split]
    exact (List.take_append_drop ..).symm
  refine ⟨core, recent, newest, found, whole, ?_, fun last => ?_, Admission.newest_iff⟩
  · show (messageWindow input (systemText input core)).kept = _
    rw [messageWindow_eq split]
  · have suffix := last.suffix
    unfold olderVerdicts at suffix
    rw [Admission.verdicts_items] at suffix
    obtain ⟨before, same⟩ := suffix
    refine ⟨before, ?_⟩
    rw [whole, ← same]
    simp [olderVerdicts]

/-- A short message, a long one and a question, under the smallest cap. -/
def gappedInput : ContextInput :=
  { shortInput with
    messages := [⟨str "m1", str "s", .user, [], [.text (str "explain x")], 0⟩,
      ⟨str "m2", str "s", .user, [], [.text (List.replicate 700 (str "a ")).flatten], 0⟩,
      ⟨str "m3", str "s", .user, [], [.text (str "explain y")], 0⟩]
    availableTokens := 800 }

/-- The oldest message is kept and the newer one behind it left out. -/
theorem gapped_keeps_oldest :
    ¬Admission.Newest (olderVerdicts gappedInput (systemText gappedInput (str "be brief\n"))) ∧
    (contextPlan gappedInput (str "be brief\n")).messages.tail.map (·.id) =
      [str "m1", str "m3"] := by
  refine ⟨fun newest => ?_, by decide +kernel⟩
  have fits : (olderVerdicts gappedInput (systemText gappedInput (str "be brief\n"))).map (·.2) =
      [true, false] := by decide +kernel
  have order := (List.pairwise_map.mpr newest : ((olderVerdicts gappedInput
    (systemText gappedInput (str "be brief\n"))).map (·.2)).Pairwise
      fun earlier later => earlier = true → later = true)
  rw [fits] at order
  exact absurd order (by decide)

theorem newest_kept_iff_short :
    ∃ core recent newest, coreText shortInput = some core ∧
      shortInput.messages = olderMessages shortInput ++ recent ++ [newest] ∧
      (Admission.Newest (olderVerdicts shortInput (systemText shortInput core)) →
        Admission.taken (olderVerdicts shortInput (systemText shortInput core)) ++ recent ++
          [newest] <:+ shortInput.messages) := by
  obtain ⟨core, recent, newest, found, whole, -, suffix, -⟩ := newest_kept_iff
    assembleContext_shortInput
  exact ⟨core, recent, newest, found, whole, suffix⟩

end Opencodepp.Prompt
