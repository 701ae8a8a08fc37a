import Opencodepp.Memory.Summarizer

/-!
# The trigger of a fold

A history is folded when its messages do not fit the window, and a plan is made of the messages
that fit it; the two count tokens on their own.  The trigger counts the text of a message and a
flat rate for every tool call and tool result; the plan counts a frame and every part by what is
in it.  The trigger keeps silent only about histories that fit exactly when the flat rates cover
the parts (`triggerAgrees_iff`), which they never do for plain texts (`not_triggerAgrees_plain`).
-/

set_option autoImplicit false

namespace Opencodepp.Memory

open Opencodepp.Library
open Opencodepp.Msg

/-- What the trigger counts for a message. -/
def flatTokens (m : Message) : Nat :=
  estimateTokens m.contentText + m.toolCalls.length * 12 + m.toolResults.length * 8

/-- What a plan counts for the messages of a history. -/
def chargedTokens (msgs : List Message) : Nat := (msgs.map estimateMessageTokens).sum

/-- Where the trigger keeps silent, the history fits the window beside the reserved output. -/
def TriggerAgrees (msgs : List Message) (keepRecent : Nat) : Prop :=
  ∀ contextWindow maxOutputTokens : UInt32, contextWindow ≠ 0 →
    needsFold msgs contextWindow maxOutputTokens keepRecent = false →
      chargedTokens msgs + maxOutputTokens.toNat ≤ contextWindow.toNat

/-! ## The charge of a message -/

theorem le_foldl_parts (parts : List Part) : ∀ acc : Nat × TokenCache,
    acc.1 ≤ (parts.foldl (fun (acc : Nat × TokenCache) part =>
      let (v, cache) := estimatePartTokens acc.2 part
      (acc.1 + v, cache)) acc).1 := by
  induction parts with
  | nil => exact fun acc => Nat.le_refl _
  | cons part rest inductionHypothesis =>
      intro acc
      have later := inductionHypothesis
        (acc.1 + (estimatePartTokens acc.2 part).1, (estimatePartTokens acc.2 part).2)
      exact Nat.le_trans (Nat.le_add_right _ _) later

/-- Every message costs its frame. -/
theorem four_le_estimateMessageTokens (m : Message) : 4 ≤ estimateMessageTokens m :=
  le_foldl_parts m.parts (4, [])

theorem length_le_chargedTokens (msgs : List Message) :
    msgs.length * 4 ≤ chargedTokens msgs := by
  induction msgs with
  | nil => exact Nat.zero_le _
  | cons m rest inductionHypothesis =>
      have frame := four_le_estimateMessageTokens m
      show (rest.length + 1) * 4 ≤ estimateMessageTokens m + chargedTokens rest
      omega

/-! ## When the two agree -/

theorem estimateHistoryTokens_eq (msgs : List Message) :
    estimateHistoryTokens msgs = min (msgs.map flatTokens).sum (2 ^ 32 - 1) := rfl

/-- What the trigger keeps silent about. -/
theorem needsFold_eq_false_iff {msgs : List Message} {contextWindow maxOutputTokens : UInt32}
    {keepRecent : Nat} (more : keepRecent < msgs.length) (window : contextWindow ≠ 0) :
    needsFold msgs contextWindow maxOutputTokens keepRecent = false ↔
      estimateHistoryTokens msgs ≤ contextWindow.toNat - maxOutputTokens.toNat := by
  unfold needsFold
  rw [if_neg window, if_neg (Nat.not_le.mpr more), decide_eq_false_iff_not, Nat.not_lt]

/-- **The trigger and the plan agree exactly where the flat rates cover the parts**, and the sum
does not outgrow the counter. -/
theorem triggerAgrees_iff {msgs : List Message} {keepRecent : Nat}
    (more : keepRecent < msgs.length) :
    TriggerAgrees msgs keepRecent ↔
      chargedTokens msgs ≤ (msgs.map flatTokens).sum ∧ chargedTokens msgs < 2 ^ 32 := by
  have some_ : 0 < chargedTokens msgs :=
    Nat.lt_of_lt_of_le (by omega) (length_le_chargedTokens msgs)
  have saturated := estimateHistoryTokens_eq msgs
  constructor
  · intro agrees
    by_cases nothing : estimateHistoryTokens msgs = 0
    · -- a window that is reserved as a whole has no room, and the trigger is silent
      have silent : needsFold msgs 1 1 keepRecent = false := by
        rw [needsFold_eq_false_iff more (by decide), nothing]
        exact Nat.zero_le _
      have fits : chargedTokens msgs + 1 ≤ 1 := agrees 1 1 (by decide) silent
      omega
    · have small : estimateHistoryTokens msgs < 2 ^ 32 := by omega
      have exact_ : (UInt32.ofNat (estimateHistoryTokens msgs)).toNat =
          estimateHistoryTokens msgs := by
        rw [UInt32.toNat_ofNat']
        exact Nat.mod_eq_of_lt small
      have window : UInt32.ofNat (estimateHistoryTokens msgs) ≠ 0 := by
        intro zero
        rw [zero] at exact_
        exact nothing exact_.symm
      have silent : needsFold msgs (UInt32.ofNat (estimateHistoryTokens msgs)) 0 keepRecent =
          false := by
        rw [needsFold_eq_false_iff more window, exact_]
        exact Nat.le_refl _
      have fits := agrees _ 0 window silent
      rw [exact_] at fits
      have zero : (0 : UInt32).toNat = 0 := rfl
      omega
  · rintro ⟨covered, counted⟩ contextWindow maxOutputTokens window silent
    rw [needsFold_eq_false_iff more window] at silent
    omega

/-- A turn in which calls without arguments are answered in a word. -/
def listingHistory : List Message :=
  let ids := [str "c1", str "c2", str "c3", str "c4"]
  ⟨str "m1", str "s", .user, [], [.text (str "list them")], 0⟩ ::
    ⟨str "m2", str "s", .assistant, [],
      ids.map fun id => .toolCall ⟨id, str "ls", str "\x7b\x7d", true⟩, 0⟩ ::
    (ids.map fun id => ⟨str "r" ++ id, str "s", .user, [], [.toolResult ⟨id, str "ok", false⟩], 0⟩) ++
    [⟨str "m3", str "s", .assistant, [], [.text (str "four are there")], 0⟩]

/-- The flat rates of short calls and results cover the frames of the texts as well. -/
theorem triggerAgrees_listing : TriggerAgrees listingHistory 2 :=
  (triggerAgrees_iff (by decide)).mpr ⟨by decide +kernel, by decide +kernel⟩

/-- A turn with a tool result of eighty braces. -/
def toolHistory : List Message :=
  [⟨str "m1", str "s", .user, [], [.text (str "list it")], 0⟩,
    ⟨str "m2", str "s", .assistant, [], [.toolCall ⟨str "c1", str "ls", str "\x7b\x7d", true⟩], 0⟩,
    ⟨str "m3", str "s", .user, [], [.toolResult ⟨str "c1", List.replicate 80 (ch '}'), false⟩], 0⟩]

/-- **A history that does not fit is not folded**: a tool result counts eight tokens whatever is
in it. -/
theorem fold_not_triggered :
    ¬TriggerAgrees toolHistory 2 ∧ needsFold toolHistory 40 16 2 = false ∧
      chargedTokens toolHistory = 46 := by
  have silent : needsFold toolHistory 40 16 2 = false := by decide +kernel
  have charge : chargedTokens toolHistory = 46 := by decide +kernel
  refine ⟨fun agrees => ?_, silent, charge⟩
  have fits := agrees 40 16 (by decide) silent
  rw [charge] at fits
  exact absurd fits (by decide)

/-! ## Plain texts -/

/-- A message of one text. -/
def IsPlainText (m : Message) : Prop := ∃ content, m.parts = [.text content]

theorem estimate_of_plain {m : Message} (plain : IsPlainText m) :
    estimateMessageTokens m = flatTokens m + 4 := by
  obtain ⟨content, parts⟩ := plain
  have charge : estimateMessageTokens m = 4 + estimateTokens content := by
    unfold estimateMessageTokens
    rw [parts]
    show 4 + (TokenCache.get [] content).1 = _
    unfold TokenCache.get
    split <;> rfl
  have flat : flatTokens m = estimateTokens content := by
    have text : m.contentText = content := by
      unfold Message.contentText
      rw [parts]
      simp
    have calls : m.toolCalls = [] := by
      unfold Message.toolCalls
      rw [parts]
      rfl
    have results : m.toolResults = [] := by
      unfold Message.toolResults
      rw [parts]
      rfl
    unfold flatTokens
    rw [text, calls, results]
    rfl
  omega

/-- **A history of plain texts is always charged more than the trigger counts.** -/
theorem not_triggerAgrees_plain {msgs : List Message} {keepRecent : Nat}
    (more : keepRecent < msgs.length) (plain : ∀ m ∈ msgs, IsPlainText m) :
    ¬TriggerAgrees msgs keepRecent := by
  have charge : chargedTokens msgs = (msgs.map flatTokens).sum + msgs.length * 4 := by
    clear more
    induction msgs with
    | nil => rfl
    | cons m rest inductionHypothesis =>
        obtain ⟨here, later⟩ := List.forall_mem_cons.mp plain
        have head := estimate_of_plain here
        have tail := inductionHypothesis later
        show estimateMessageTokens m + chargedTokens rest =
          flatTokens m + (rest.map flatTokens).sum + (rest.length + 1) * 4
        omega
  rw [triggerAgrees_iff more]
  omega

end Opencodepp.Memory
