import Opencodepp.Library.Bisection
import Opencodepp.Prompt.Decisions

/-!
# The shortening of the newest message

The newest message of the user is cut down to the start that a bisection finds, and a mark is put
behind it.  The bisection asks for the cost of the start alone, and that cost does not grow with
the start: a text is counted in one of three ways, and a longer start may be counted in another
one.  The message placed in the plan is the longest marked start that fits exactly when the
bisection happens to land on it, and it keeps its other parts exactly when it has none
(`shortenedWell_iff`).
-/

set_option autoImplicit false

namespace Opencodepp.Prompt

open Opencodepp.Library
open Opencodepp.Msg

/-- The mark behind a text that is cut. -/
def contextTruncated : Bytes := str " [context truncated]"

/-- What the start of a text costs with the mark behind it. -/
def markedTokens (text : Bytes) (n : Nat) : Nat :=
  estimateTokens (text.take n ++ contextTruncated)

/-- The longest start of a text that fits a budget with the mark behind it. -/
structure LongestMarked (text : Bytes) (budget n : Nat) : Prop where
  within : n ≤ text.length
  fits : markedTokens text n ≤ budget
  longest : ∀ l, n < l → l ≤ text.length → budget < markedTokens text l

def Part.isText : Part → Bool
  | .text _ => true
  | _ => false

/-- The parts of a message beside its text. -/
def otherParts (m : Message) : List Part := m.parts.filter (!Part.isText ·)

/-- A message is shortened to the longest marked start of its text that fits the floor, and
nothing else of it is lost. -/
structure ShortenedWell (m placed : Message) : Prop where
  text : ∃ n, LongestMarked m.contentText newestUserFloor n ∧
    placed.contentText = m.contentText.take n ++ contextTruncated
  others : otherParts placed = otherParts m

/-- Every start that the bisection asks for on the way to the longest marked start fits the budget
without the mark exactly when it is no longer than that one. -/
def SearchLands (text : Bytes) (budget : Nat) : Prop :=
  ∃ n, LongestMarked text budget n ∧
    ∀ mid ∈ Bisection.probes n (text.length + 1) 0 text.length,
      (estimateTokens (text.take mid) ≤ budget ↔ mid ≤ n)

theorem bisect_eq_search (text : Bytes) (budget fuel : Nat) : ∀ lo hi : Nat,
    bisect text budget fuel lo hi =
      Bisection.search (fun n => decide (estimateTokens (text.take n) ≤ budget)) fuel lo hi := by
  induction fuel with
  | zero => exact fun lo hi => rfl
  | succ fuel inductionHypothesis =>
      intro lo hi
      unfold bisect Bisection.search
      simp only [inductionHypothesis, decide_eq_true_eq]

theorem bisect_eq_iff {text : Bytes} {budget n : Nat} (within : n ≤ text.length) :
    bisect text budget (text.length + 1) 0 text.length = n ↔
      ∀ mid ∈ Bisection.probes n (text.length + 1) 0 text.length,
        (estimateTokens (text.take mid) ≤ budget ↔ mid ≤ n) := by
  rw [bisect_eq_search, Bisection.search_eq_iff _ 0 text.length (by omega) (Nat.zero_le n) within]
  simp only [decide_eq_true_eq]

/-- The message that is placed for a long one of the user. -/
theorem sentMessage_of_long {m : Message} (user : m.role = .user)
    (long : newestUserFloor < estimateTokens m.contentText) :
    sentMessage m = { m with parts := [.text (m.contentText.take
      (bisect m.contentText newestUserFloor (m.contentText.length + 1) 0 m.contentText.length) ++
        contextTruncated)] } := by
  have cut : truncateText m.contentText newestUserFloor = (m.contentText.take
      (bisect m.contentText newestUserFloor (m.contentText.length + 1) 0 m.contentText.length) ++
        contextTruncated, true) := if_neg (Nat.not_le.mpr long)
  unfold sentMessage shortens
  rw [cut, user]
  rfl

/-- Whatever else a long message has is lost. -/
theorem otherParts_sentMessage {m : Message} (user : m.role = .user)
    (long : newestUserFloor < estimateTokens m.contentText) : otherParts (sentMessage m) = [] := by
  rw [sentMessage_of_long user long]
  rfl

theorem shortenedWell_sentMessage_iff {m : Message} (user : m.role = .user)
    (long : newestUserFloor < estimateTokens m.contentText) :
    ShortenedWell m (sentMessage m) ↔
      otherParts m = [] ∧ SearchLands m.contentText newestUserFloor := by
  have sent := sentMessage_of_long user long
  have text : (sentMessage m).contentText = m.contentText.take
      (bisect m.contentText newestUserFloor (m.contentText.length + 1) 0 m.contentText.length) ++
        contextTruncated := by
    rw [sent]
    exact List.append_nil _
  have others := otherParts_sentMessage user long
  constructor
  · rintro ⟨⟨n, longest, same⟩, kept⟩
    refine ⟨kept.symm.trans others, n, longest, (bisect_eq_iff longest.within).mp ?_⟩
    -- two starts of one text that are equal are of one length
    have start := List.append_cancel_right (text.symm.trans same)
    have lengths := congrArg List.length start
    have inner := (@Bisection.search_mem (fun n => decide
      (estimateTokens (m.contentText.take n) ≤ newestUserFloor)) (m.contentText.length + 1) 0
        m.contentText.length (Nat.zero_le _)).2
    rw [← bisect_eq_search] at inner
    rwa [List.length_take_of_le inner, List.length_take_of_le longest.within] at lengths
  · rintro ⟨none_, n, longest, lands⟩
    refine ⟨⟨n, longest, ?_⟩, others.trans none_.symm⟩
    rw [text, (bisect_eq_iff longest.within).mpr lands]

/-- The newest message of a plan is the last one. -/
theorem getLast?_messages {input : ContextInput} {plan : ContextPlan}
    (assembled : assembleContext input = .ok plan) {earlier : List Message} {m : Message}
    (history : input.messages = earlier ++ [m]) :
    plan.messages.getLast? = some (sentMessage m) := by
  obtain ⟨some_, core, -, rfl⟩ := assembleContext_eq_ok.mp assembled
  obtain ⟨recent, newest, split⟩ := exists_newest some_
  have last : newest = m := by
    have whole := congrArg List.getLast? (List.take_append_drop (tierOne input) input.messages)
    rw [split, history] at whole
    simpa using whole
  show (_ :: (messageWindow input (systemText input core)).kept).getLast? = _
  rw [messageWindow_eq split, last, ← List.cons_append, List.getLast?_concat]

/-- **How the newest message is shortened.**  It is the longest marked start that fits, with all
its other parts, exactly when it has no other parts and every answer to the bisection points to
that start. -/
theorem shortenedWell_iff {input : ContextInput} {plan : ContextPlan}
    (assembled : assembleContext input = .ok plan) {earlier : List Message} {m : Message}
    (history : input.messages = earlier ++ [m]) (user : m.role = .user)
    (long : newestUserFloor < estimateTokens m.contentText) :
    ∃ placed, plan.messages.getLast? = some placed ∧
      (ShortenedWell m placed ↔
        otherParts m = [] ∧ SearchLands m.contentText newestUserFloor) :=
  ⟨sentMessage m, getLast?_messages assembled history, shortenedWell_sentMessage_iff user long⟩

/-- A request with one message of the user. -/
def singleInput (parts : List Part) : ContextInput :=
  { shortInput with messages := [⟨str "m1", str "s", .user, [], parts, 0⟩] }

theorem assembleContext_singleInput (parts : List Part) :
    ∃ plan, assembleContext (singleInput parts) = .ok plan := by
  have found : coreText (singleInput parts) = some (str "be brief\n") := by
    have same : coreText (singleInput parts) = coreText shortInput := rfl
    rw [same]
    decide +kernel
  exact ⟨_, assembleContext_eq_ok.mpr ⟨List.cons_ne_nil _ _, _, found, rfl⟩⟩

/-- Text that is all ideographs is cut where it should be. -/
theorem shortenedWell_iff_ideographs :
    ∃ plan placed, assembleContext (singleInput [.text (List.replicate 730 0xE0)]) = .ok plan ∧
      plan.messages.getLast? = some placed ∧
      ShortenedWell ⟨str "m1", str "s", .user, [], [.text (List.replicate 730 0xE0)], 0⟩
        placed := by
  obtain ⟨plan, assembled⟩ := assembleContext_singleInput [.text (List.replicate 730 0xE0)]
  obtain ⟨placed, last, well⟩ := @shortenedWell_iff _ _ assembled [] _ rfl rfl
    (by decide +kernel)
  refine ⟨plan, placed, assembled, last, well.mpr ⟨rfl, 728, ⟨?_, ?_, ?_⟩, ?_⟩⟩
  · decide +kernel
  · decide +kernel
  · intro l above below
    have text : (⟨str "m1", str "s", .user, [], [.text (List.replicate 730 0xE0)], 0⟩ :
        Message).contentText = List.replicate 730 0xE0 := List.append_nil _
    rw [text, List.length_replicate] at below
    have which : l = 729 ∨ l = 730 := by omega
    rcases which with rfl | rfl <;> decide +kernel
  · decide +kernel

/-- Six hundred and seventeen words and an image. -/
def wordsAndImage : List Part :=
  [.text (List.replicate 617 (str "a ")).flatten, .imageUrl (str "x.png")]

/-- **A long message of words is placed above the floor and without its image.** -/
theorem wordsAndImage_overflows :
    ∃ plan placed, assembleContext (singleInput wordsAndImage) = .ok plan ∧
      plan.messages.getLast? = some placed ∧
      newestUserFloor < estimateTokens placed.contentText ∧ otherParts placed = [] ∧
      ¬ShortenedWell ⟨str "m1", str "s", .user, [], wordsAndImage, 0⟩ placed := by
  obtain ⟨plan, assembled⟩ := assembleContext_singleInput wordsAndImage
  have last := @getLast?_messages _ _ assembled []
    ⟨str "m1", str "s", .user, [], wordsAndImage, 0⟩ rfl
  have lost := otherParts_sentMessage
    (m := ⟨str "m1", str "s", .user, [], wordsAndImage, 0⟩) rfl (by decide +kernel)
  refine ⟨plan, _, assembled, last, by decide +kernel, lost, fun well => ?_⟩
  have kept := well.others
  rw [lost] at kept
  exact absurd kept (by decide)

end Opencodepp.Prompt
