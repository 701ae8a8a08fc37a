import Opencodepp.Agent.History
import Opencodepp.Library.Links
import Opencodepp.Memory.Summarizer
import Opencodepp.Prompt.Decisions

/-!
# Calls and results in a projected history

A fold cuts a history by the number of messages and the assembly by their cost, and neither asks
which call a result belongs to.  Every call that is kept still has its result and every result its
call where the messages that mention an identifier are kept together (`projections_linked`): on
one side of the cut, or all cheap enough to be kept or all too dear.
-/

set_option autoImplicit false

namespace Opencodepp.Agent

open Opencodepp.Core
open Opencodepp.Library
open Opencodepp.Library.Pairing
open Opencodepp.Msg
open Opencodepp.Prompt

/-! ## The assembly -/

/-- What becomes of each message: the newest is given up when it is shortened, as only a text is
left of it. -/
def messageVerdicts (input : ContextInput) (sys : SystemText) : List (Message × Bool) :=
  let recent := input.messages.drop (tierOne input)
  olderVerdicts input sys ++ recent.dropLast.map (fun m => (m, true)) ++
    recent.getLast?.toList.map fun m => (m, !shortens m)

/-- What becomes of each part. -/
def partVerdicts (verdicts : List (Message × Bool)) : List (Part × Bool) :=
  verdicts.flatMap fun v => v.1.parts.map fun part => (part, v.2)

theorem taken_all {α : Type} (items : List α) :
    Admission.taken (items.map fun a => (a, true)) = items := by
  induction items with
  | nil => rfl
  | cons a rest inductionHypothesis => exact congrArg (a :: ·) inductionHypothesis

theorem taken_none {α : Type} (items : List α) :
    Admission.taken (items.map fun a => (a, false)) = [] := by
  induction items with
  | nil => rfl
  | cons a rest inductionHypothesis => exact inductionHypothesis

theorem taken_partVerdicts (verdicts : List (Message × Bool)) :
    Admission.taken (partVerdicts verdicts) = partsOf (Admission.taken verdicts) := by
  induction verdicts with
  | nil => rfl
  | cons v rest inductionHypothesis =>
      obtain ⟨m, kept⟩ := v
      have split : partVerdicts ((m, kept) :: rest) =
          m.parts.map (fun part => (part, kept)) ++ partVerdicts rest := rfl
      rw [split, taken_append, inductionHypothesis]
      cases kept with
      | false => rw [taken_none, List.nil_append, Admission.taken_cons_false]
      | true =>
          rw [taken_all, Admission.taken_cons_true]
          rfl

section Assembly

variable {input : ContextInput} {recent : List Message} {newest : Message}

theorem messageVerdicts_eq (split : input.messages.drop (tierOne input) = recent ++ [newest])
    (sys : SystemText) :
    messageVerdicts input sys = olderVerdicts input sys ++ recent.map (fun m => (m, true)) ++
      [(newest, !shortens newest)] := by
  unfold messageVerdicts
  dsimp only
  rw [split, List.dropLast_concat, List.getLast?_concat]
  rfl

theorem olderVerdicts_items (input : ContextInput) (sys : SystemText) :
    (olderVerdicts input sys).map (·.1) = olderMessages input :=
  Admission.verdicts_items _ _

theorem messageVerdicts_items (some_ : input.messages ≠ []) (sys : SystemText) :
    (messageVerdicts input sys).map (·.1) = input.messages := by
  obtain ⟨recent, newest, split⟩ := exists_newest some_
  have items : (recent.map fun m => (m, true)).map (·.1) = recent := by
    rw [List.map_map]
    exact List.map_id _
  rw [messageVerdicts_eq split, List.map_append, List.map_append, items, olderVerdicts_items,
    List.append_assoc]
  show olderMessages input ++ (recent ++ [newest]) = input.messages
  rw [← split]
  exact List.take_append_drop ..

theorem message_at {core : Bytes} (some_ : input.messages ≠ []) {i : Nat} {v : Message × Bool}
    (there : (messageVerdicts input (systemText input core))[i]? = some v) :
    input.messages[i]? = some v.1 := by
  rw [← messageVerdicts_items some_ (systemText input core), List.getElem?_map, there]
  rfl

/-- The parts of a plan are those that are kept, between texts. -/
theorem linked_plan_iff (some_ : input.messages ≠ []) (core : Bytes) :
    Linked toolProtocol (partsOf (contextPlan input core).messages) ↔
      Linked toolProtocol (Admission.taken
        (partVerdicts (messageVerdicts input (systemText input core)))) := by
  obtain ⟨recent, newest, split⟩ := exists_newest some_
  have messages : (contextPlan input core).messages =
      systemMessage (injectSchema input (systemText input core).text) ::
        (Admission.taken (olderVerdicts input (systemText input core)) ++ recent ++
          [sentMessage newest]) := by
    show systemMessage _ :: (messageWindow input (systemText input core)).kept = _
    rw [messageWindow_eq split]
  rw [taken_partVerdicts, messageVerdicts_eq split, taken_append, taken_append,
    taken_all, messages]
  refine (linked_cons_inert rfl rfl (partsOf _)).trans ?_
  cases short : shortens newest with
  | false =>
      have whole : sentMessage newest = newest := by
        unfold sentMessage
        rw [short, if_neg Bool.false_ne_true]
      rw [whole]
      exact Iff.rfl
  | true =>
      have text : (sentMessage newest).parts =
          [.text (truncateText newest.contentText newestUserFloor).1] := by
        unfold sentMessage
        rw [short, if_pos rfl]
      rw [partsOf_concat, text]
      refine (linked_append_inert rfl rfl _).trans ?_
      rw [show Admission.taken [(newest, !true)] = [] from rfl, List.append_nil]

end Assembly

/-! ## Messages that are sure to stay or to go -/

/-- What older messages are admitted beside: the templates with the entries that are each within
the budget, and the tools. -/
def besideCost (input : ContextInput) (core : Bytes) : Nat :=
  estimateTokens (core ++ textsOf ((input.env ++ input.repo).filter fun e =>
    (entryReason input e).isNone)) % 2 ^ 32 + toolTokens input

/-- A long text of the user. -/
def Long (m : Message) : Prop := m.role = .user ∧ newestUserFloor < estimateTokens m.contentText

/-- The message at a place is sure to be kept: it is an older one that fits the cap with all
before it, or a recent one, and not a long text as the newest. -/
def Stays (input : ContextInput) (core : Bytes) (i : Nat) : Prop :=
  if i < tierOne input then
    besideCost input core + Admission.total messageTokens (input.messages.take (i + 1)) ≤
      resolveCap input
  else i + 1 = input.messages.length → ∀ m ∈ input.messages[i]?, ¬Long m

/-- The parts of the message at a place are sure to be given up: it is an older one that does not
fit the cap alone, or a long text as the newest. -/
def Goes (input : ContextInput) (core : Bytes) (i : Nat) : Prop :=
  if i < tierOne input then
    ∀ m ∈ input.messages[i]?, resolveCap input < besideCost input core + messageTokens m
  else i + 1 = input.messages.length ∧ ∀ m ∈ input.messages[i]?, Long m

/-- A message calls or answers under an identifier. -/
def MentionsId (id : Bytes) (m : Message) : Prop := ∃ part ∈ m.parts, Mentions toolProtocol id part

/-- The messages that mention an identifier are all sure to stay, or all sure to go. -/
def KeptTogether (input : ContextInput) (core : Bytes) : Prop :=
  ∀ id, (∀ i m, input.messages[i]? = some m → MentionsId id m → Stays input core i) ∨
    ∀ i m, input.messages[i]? = some m → MentionsId id m → Goes input core i

theorem keptOf_decideEntries (input : ContextInput) (entries : List EnvEntry) :
    keptOf (decideEntries input entries) =
      entries.filter fun e => (entryReason input e).isNone := by
  unfold keptOf decideEntries
  rw [List.filter_map, List.map_map]
  exact List.map_id _

theorem fixedTokens_eq (input : ContextInput) (core : Bytes) :
    fixedTokens input (systemText input core) = besideCost input core := by
  unfold fixedTokens besideCost
  rw [systemText_eq, keptOf_decideEntries, keptOf_decideEntries, List.filter_append]

theorem shortens_iff (m : Message) : shortens m = true ↔ Long m := by
  unfold shortens Long truncateText
  rw [Bool.and_eq_true, decide_eq_true_iff]
  refine and_congr_right fun _ => ?_
  split
  · next short =>
      exact ⟨fun never => (by cases never), fun long => absurd short (Nat.not_le.mpr long)⟩
  · next long => exact ⟨fun _ => Nat.not_le.mp long, fun _ => rfl⟩

/-- A message that is sure is decided on as it has to be. -/
theorem verdict_sure {input : ContextInput} {core : Bytes} (some_ : input.messages ≠ []) {i : Nat}
    {v : Message × Bool} (there : (messageVerdicts input (systemText input core))[i]? = some v) :
    (Stays input core i → v.2 = true) ∧ (Goes input core i → v.2 = false) := by
  obtain ⟨recent, newest, split⟩ := exists_newest some_
  have items : input.messages[i]? = some v.1 := message_at some_ there
  have whole := List.take_append_drop (tierOne input) input.messages
  have inner := tierOne_lt some_
  have older : (olderVerdicts input (systemText input core)).length = tierOne input := by
    have length := congrArg List.length (olderVerdicts_items input (systemText input core))
    rw [List.length_map] at length
    exact length.trans (List.length_take_of_le (Nat.le_of_lt inner))
  have lengths : input.messages.length = tierOne input + (recent.length + 1) := by
    rw [← whole, split, List.length_append, List.length_append,
      List.length_take_of_le (Nat.le_of_lt inner)]
    rfl
  rw [messageVerdicts_eq split, List.append_assoc] at there
  unfold Stays Goes
  rw [items]
  by_cases early : i < tierOne input
  · rw [if_pos early, if_pos early]
    rw [List.getElem?_append_left (older.symm ▸ early)] at there
    have upTo : input.messages.take (i + 1) = (olderMessages input).take (i + 1) := by
      unfold olderMessages
      rw [List.take_take, Nat.min_eq_left early]
    rw [upTo, ← fixedTokens_eq]
    exact ⟨Admission.taken_of_prefix_fits there,
      fun dear => Admission.passed_of_exceeds there (dear v.1 rfl)⟩
  · rw [if_neg early, if_neg early]
    rw [List.getElem?_append_right (older.symm ▸ Nat.not_lt.mp early), older] at there
    by_cases last : i - tierOne input < recent.length
    · rw [List.getElem?_append_left (by simpa using last), List.getElem?_map] at there
      obtain ⟨m, -, rfl⟩ := Option.map_eq_some_iff.mp there
      exact ⟨fun _ => rfl, fun goes => by omega⟩
    · rw [List.getElem?_append_right (by simpa using last), List.length_map] at there
      obtain ⟨at_, -⟩ := List.getElem?_eq_some_iff.mp there
      have here : i - tierOne input - recent.length = 0 := Nat.lt_one_iff.mp at_
      rw [here, List.getElem?_cons_zero] at there
      obtain rfl := Option.some.inj there
      refine ⟨fun stays => ?_, fun goes => ?_⟩
      · have short := mt (shortens_iff newest).mp (stays (by omega) newest rfl)
        exact Bool.not_eq_true' _ ▸ Bool.eq_false_iff.mpr short
      · have long := (shortens_iff newest).mpr (goes.2 newest rfl)
        show (!shortens newest) = false
        rw [long]
        rfl

/-- A part that is decided on is one of a message at some place. -/
theorem exists_verdict {verdicts : List (Message × Bool)} {d : Part × Bool}
    (member : d ∈ partVerdicts verdicts) :
    ∃ (i : Nat) (v : Message × Bool), verdicts[i]? = some v ∧ d.1 ∈ v.1.parts ∧ d.2 = v.2 := by
  obtain ⟨v, there, inside⟩ := List.mem_flatMap.mp member
  obtain ⟨part, within, rfl⟩ := List.mem_map.mp inside
  obtain ⟨i, place⟩ := List.mem_iff_getElem?.mp there
  exact ⟨i, v, place, within, rfl⟩

theorem mem_partVerdicts {verdicts : List (Message × Bool)} {i : Nat} {v : Message × Bool}
    (there : verdicts[i]? = some v) {part : Part} (inside : part ∈ v.1.parts) :
    (part, v.2) ∈ partVerdicts verdicts :=
  List.mem_flatMap.mpr ⟨v, List.mem_of_getElem? there, List.mem_map.mpr ⟨part, inside, rfl⟩⟩

theorem partVerdicts_items (verdicts : List (Message × Bool)) :
    (partVerdicts verdicts).map (·.1) = partsOf (verdicts.map (·.1)) := by
  unfold partVerdicts partsOf
  rw [List.map_flatMap, List.flatMap_map]
  refine List.flatMap_congr fun v _ => ?_
  rw [List.map_map]
  exact List.map_id _

section Together

variable {input : ContextInput} {core : Bytes}

/-- Where the messages are sure to be kept together, so are the parts. -/
theorem together_of_keptTogether (some_ : input.messages ≠ []) (kept : KeptTogether input core) :
    Together toolProtocol (partVerdicts (messageVerdicts input (systemText input core))) := by
  intro id d member e member' mentions mentions'
  obtain ⟨i, v, there, inside, same⟩ := exists_verdict member
  obtain ⟨j, w, there', inside', same'⟩ := exists_verdict member'
  rw [same, same']
  rcases kept id with stay | go
  · rw [(verdict_sure some_ there).1 (stay i v.1 (message_at some_ there) ⟨_, inside, mentions⟩),
      (verdict_sure some_ there').1 (stay j w.1 (message_at some_ there') ⟨_, inside', mentions'⟩)]
  · rw [(verdict_sure some_ there).2 (go i v.1 (message_at some_ there) ⟨_, inside, mentions⟩),
      (verdict_sure some_ there').2 (go j w.1 (message_at some_ there') ⟨_, inside', mentions'⟩)]

/-- Where every message is sure to stay or to go, parts that are kept together come from messages
that are. -/
theorem keptTogether_of_together (some_ : input.messages ≠ [])
    (sure : ∀ i < input.messages.length, Stays input core i ∨ Goes input core i)
    (together :
      Together toolProtocol (partVerdicts (messageVerdicts input (systemText input core)))) :
    KeptTogether input core := by
  have verdict {i : Nat} {m : Message} (there : input.messages[i]? = some m) :
      ∃ v, (messageVerdicts input (systemText input core))[i]? = some v ∧ v.1 = m := by
    rw [← messageVerdicts_items some_ (systemText input core), List.getElem?_map] at there
    exact Option.map_eq_some_iff.mp there
  intro id
  by_cases stay : ∀ i m, input.messages[i]? = some m → MentionsId id m → Stays input core i
  · exact .inl stay
  · push Not at stay
    obtain ⟨i, m, there, ⟨part, inside, mentions⟩, leaves⟩ := stay
    obtain ⟨v, place, rfl⟩ := verdict there
    have gone := (verdict_sure some_ place).2
      ((sure i (List.getElem?_eq_some_iff.mp there).1).resolve_left leaves)
    refine .inr fun j m' there' ⟨part', inside', mentions'⟩ => ?_
    obtain ⟨w, place', rfl⟩ := verdict there'
    have same : v.2 = w.2 := together id _ (mem_partVerdicts place inside) _
      (mem_partVerdicts place' inside') mentions mentions'
    refine (sure j (List.getElem?_eq_some_iff.mp there').1).resolve_left fun stays => ?_
    have kept := (verdict_sure some_ place').1 stays
    rw [← same, gone] at kept
    cases kept

end Together

/-! ## The fold -/

/-- No identifier is mentioned on both sides of a cut. -/
def CutApart (history : List Message) (cut : Nat) : Prop :=
  ∀ id, ∀ m ∈ history.take cut, ∀ later ∈ history.drop cut, MentionsId id m → ¬MentionsId id later

/-- A fold gives up the messages in front of the cut. -/
def foldVerdicts (history : List Message) (cut : Nat) : List (Message × Bool) :=
  (history.take cut).map (fun m => (m, false)) ++ (history.drop cut).map fun m => (m, true)

theorem foldVerdicts_items (history : List Message) (cut : Nat) :
    (foldVerdicts history cut).map (·.1) = history := by
  unfold foldVerdicts
  rw [List.map_append, List.map_map, List.map_map]
  show (history.take cut).map id ++ (history.drop cut).map id = history
  rw [List.map_id, List.map_id, List.take_append_drop]

theorem taken_foldVerdicts (history : List Message) (cut : Nat) :
    Admission.taken (foldVerdicts history cut) = history.drop cut := by
  unfold foldVerdicts
  rw [taken_append, taken_none, taken_all, List.nil_append]

theorem together_foldVerdicts_iff (history : List Message) (cut : Nat) :
    Together toolProtocol (partVerdicts (foldVerdicts history cut)) ↔ CutApart history cut := by
  have front {part : Part} {m : Message} (member : m ∈ history.take cut) (inside : part ∈ m.parts) :
      (part, false) ∈ partVerdicts (foldVerdicts history cut) :=
    List.mem_flatMap.mpr ⟨(m, false), List.mem_append_left _ (List.mem_map_of_mem member),
      List.mem_map.mpr ⟨part, inside, rfl⟩⟩
  have behind {part : Part} {m : Message} (member : m ∈ history.drop cut)
      (inside : part ∈ m.parts) : (part, true) ∈ partVerdicts (foldVerdicts history cut) :=
    List.mem_flatMap.mpr ⟨(m, true), List.mem_append_right _ (List.mem_map_of_mem member),
      List.mem_map.mpr ⟨part, inside, rfl⟩⟩
  have place {d : Part × Bool} (member : d ∈ partVerdicts (foldVerdicts history cut)) :
      ∃ m, d.1 ∈ m.parts ∧
        (m ∈ history.take cut ∧ d.2 = false ∨ m ∈ history.drop cut ∧ d.2 = true) := by
    obtain ⟨v, there, inside⟩ := List.mem_flatMap.mp member
    obtain ⟨part, within, rfl⟩ := List.mem_map.mp inside
    rcases List.mem_append.mp there with early | late
    · obtain ⟨m, first, rfl⟩ := List.mem_map.mp early
      exact ⟨m, within, .inl ⟨first, rfl⟩⟩
    · obtain ⟨m, last, rfl⟩ := List.mem_map.mp late
      exact ⟨m, within, .inr ⟨last, rfl⟩⟩
  constructor
  · rintro together id m member later member' ⟨part, inside, mentions⟩ ⟨part', inside', mentions'⟩
    cases together id _ (front member inside) _ (behind member' inside') mentions mentions'
  · intro apart id d member e member' mentions mentions'
    obtain ⟨m, inside, ⟨first, cut_⟩ | ⟨last, kept⟩⟩ := place member
    · obtain ⟨m', inside', ⟨first', cut'⟩ | ⟨last', -⟩⟩ := place member'
      · rw [cut_, cut']
      · exact absurd ⟨_, inside', mentions'⟩ (apart id m first m' last' ⟨_, inside, mentions⟩)
    · obtain ⟨m', inside', ⟨first', -⟩ | ⟨last', kept'⟩⟩ := place member'
      · exact absurd ⟨_, inside, mentions⟩ (apart id m' first' m last ⟨_, inside', mentions'⟩)
      · rw [kept, kept']

/-- A fold keeps the parts behind the cut, unless there is nothing to fold. -/
theorem linked_fold_iff {history : List Message} {keepRecent : Nat}
    (long : keepRecent < history.length) (contextWindow maxOutputTokens : UInt32)
    (fn : Option (List Message → Bytes → Bytes)) :
    Linked toolProtocol
        (partsOf (Memory.foldOldest history contextWindow maxOutputTokens keepRecent fn).messages) ↔
      Linked toolProtocol (Admission.taken
        (partVerdicts (foldVerdicts history (history.length - keepRecent)))) := by
  rw [taken_partVerdicts, taken_foldVerdicts]
  unfold Memory.foldOldest
  rw [if_neg (Nat.not_le.mpr long)]
  exact linked_cons_inert rfl rfl (partsOf _)

theorem linked_fold_of_short {history : List Message} {keepRecent : Nat}
    (short : history.length ≤ keepRecent) (contextWindow maxOutputTokens : UInt32)
    (fn : Option (List Message → Bytes → Bytes)) :
    Linked toolProtocol
      (partsOf (Memory.foldOldest history contextWindow maxOutputTokens keepRecent fn).messages) := by
  unfold Memory.foldOldest
  rw [if_pos short]
  exact ⟨fun before a after k split => absurd split (by simp [Memory.FoldResult.none, partsOf]),
    fun before a after k split => absurd split (by simp [Memory.FoldResult.none, partsOf])⟩

theorem cutApart_zero {history : List Message} {keepRecent : Nat}
    (short : history.length ≤ keepRecent) : CutApart history (history.length - keepRecent) := by
  rw [Nat.sub_eq_zero_of_le short]
  exact fun id m member => absurd member List.not_mem_nil

/-! ## Both projections -/

/-- Every identifier is called once and answered once. -/
def UsedOnce (history : List Message) : Prop :=
  Paired toolProtocol (partsOf history) ∧ AskedOnce toolProtocol (partsOf history)

/-- **Projections keep calls and results together** where the messages that mention an identifier
are kept together: a fold of a linked history where no identifier is mentioned on both sides of
the cut, and a plan where the messages that mention one are all sure to stay or all sure to go.
Where every identifier is called and answered once, a fold does so only there, and so does a plan
for which every message is sure. -/
theorem projections_linked {history : List Message}
    (linked : Linked toolProtocol (partsOf history)) :
    (∀ (contextWindow maxOutputTokens : UInt32) (keepRecent : Nat)
      (fn : Option (List Message → Bytes → Bytes)),
      let folded := (Memory.foldOldest history contextWindow maxOutputTokens keepRecent fn).messages
      (CutApart history (history.length - keepRecent) → Linked toolProtocol (partsOf folded)) ∧
        (UsedOnce history → (Linked toolProtocol (partsOf folded) ↔
          CutApart history (history.length - keepRecent)))) ∧
    ∀ (input : ContextInput) (plan : ContextPlan), input.messages = history →
      assembleContext input = .ok plan → ∃ core, coreText input = some core ∧
        (KeptTogether input core → Linked toolProtocol (partsOf plan.messages)) ∧
        (UsedOnce history → (∀ i < history.length, Stays input core i ∨ Goes input core i) →
          (Linked toolProtocol (partsOf plan.messages) ↔ KeptTogether input core)) := by
  refine ⟨fun contextWindow maxOutputTokens keepRecent fn => ?_, fun input plan same assembled => ?_⟩
  · intro folded
    have items : (partVerdicts (foldVerdicts history (history.length - keepRecent))).map (·.1) =
        partsOf history := by
      rw [partVerdicts_items, foldVerdicts_items]
    have enough (apart : CutApart history (history.length - keepRecent)) :
        Linked toolProtocol (partsOf folded) := by
      by_cases short : history.length ≤ keepRecent
      · exact linked_fold_of_short short contextWindow maxOutputTokens fn
      · refine (linked_fold_iff (Nat.not_le.mp short) contextWindow maxOutputTokens fn).mpr ?_
        exact Linked.taken (items.symm ▸ linked) ((together_foldVerdicts_iff ..).mpr apart)
    refine ⟨enough, fun once => ⟨fun kept => ?_, enough⟩⟩
    by_cases short : history.length ≤ keepRecent
    · exact cutApart_zero short
    · have taken := (linked_fold_iff (Nat.not_le.mp short) contextWindow maxOutputTokens fn).mp kept
      exact (together_foldVerdicts_iff ..).mp
        (together_of_linked (items.symm ▸ once.1) (items.symm ▸ once.2) taken)
  · obtain ⟨some_, core, found, rfl⟩ := assembleContext_eq_ok.mp assembled
    have items : (partVerdicts (messageVerdicts input (systemText input core))).map (·.1) =
        partsOf history := by
      rw [partVerdicts_items, messageVerdicts_items some_, same]
    have enough (together : KeptTogether input core) :
        Linked toolProtocol (partsOf (contextPlan input core).messages) :=
      (linked_plan_iff some_ core).mpr
        (Linked.taken (items.symm ▸ linked) (together_of_keptTogether some_ together))
    refine ⟨core, found, enough, fun once sure => ⟨fun kept => ?_, enough⟩⟩
    exact keptTogether_of_together some_ (same ▸ sure) (together_of_linked (items.symm ▸ once.1)
      (items.symm ▸ once.2) ((linked_plan_iff some_ core).mp kept))

/-! ## A cut between a call and its result -/

/-- A text of one side. -/
def spoken (role : Role) (text : String) : Message :=
  ⟨[], str "s", role, [], [.text (str text)], 0⟩

/-- A question, a call, its result, and three texts. -/
def consulted : List Message :=
  [spoken .user "explain x",
    ⟨[], str "s", .assistant, [], [.toolCall ⟨str "c1", str "file.read", str "\x7b\x7d", true⟩], 0⟩,
    ⟨[], str "s", .user, [], [.toolResult ⟨str "c1", str "int x;", false⟩], 0⟩,
    spoken .assistant "x is an int", spoken .user "and y", spoken .assistant "so is y"]

theorem linked_consulted : Linked toolProtocol (partsOf consulted) := by
  have asked := (pending_nil.inert rfl rfl : Pending toolProtocol [] ([] ++ [.text (str "explain x")]))
  have called := asked.ask (x := .toolCall ⟨str "c1", str "file.read", str "\x7b\x7d", true⟩) rfl
    (by decide)
  have answered := Pending.answer (x := .toolResult ⟨str "c1", str "int x;", false⟩) called
    List.not_mem_nil rfl
  have texts := ((answered.inert (x := .text (str "x is an int")) rfl rfl).inert
    (x := .text (str "and y")) rfl rfl).inert (x := .text (str "so is y")) rfl rfl
  exact texts.paired.linked

/-- A fold that keeps the four newest messages begins with the result. -/
theorem fold_orphans_result :
    Linked toolProtocol (partsOf consulted) ∧
    ¬Linked toolProtocol (partsOf (Memory.foldOldest consulted 0 0 4 none).messages) := by
  refine ⟨linked_consulted, fun kept => ?_⟩
  have taken := (linked_fold_iff (by decide : 4 < consulted.length) 0 0 none).mp kept
  exact absurd (taken.asked [] _ _ (str "c1") rfl rfl) (by decide)

/-- The same history before the assembly. -/
def consultedInput : ContextInput := { shortInput with messages := consulted }

instance (m : Message) : Decidable (Long m) := inferInstanceAs (Decidable (_ ∧ _))

instance (input : ContextInput) (core : Bytes) (i : Nat) : Decidable (Stays input core i) :=
  inferInstanceAs (Decidable (if i < tierOne input then _ else _ → ∀ m ∈ input.messages[i]?, ¬Long m))

/-- A fold that keeps three messages keeps the call and the result together, and so does a plan
with room for all. -/
theorem projections_linked_consulted :
    Linked toolProtocol (partsOf (Memory.foldOldest consulted 0 0 3 none).messages) ∧
    Linked toolProtocol (partsOf (contextPlan consultedInput (str "be brief\n")).messages) := by
  have found : coreText consultedInput = some (str "be brief\n") := by decide +kernel
  have assembled := assembleContext_eq_ok.mpr
    ⟨(by decide : consultedInput.messages ≠ []), _, found, rfl⟩
  obtain ⟨folds, plans⟩ := projections_linked linked_consulted
  obtain ⟨core, held, together, -⟩ := plans consultedInput _ rfl assembled
  cases found.symm.trans held
  refine ⟨(folds 0 0 3 none).1 fun id m _ later member _ mentions => ?_,
    together fun id => .inl fun i m there _ => ?_⟩
  · have texts : ∀ later ∈ consulted.drop (consulted.length - 3), ∀ part ∈ later.parts,
        toolProtocol.asks part = none ∧ toolProtocol.answers part = none := by decide
    obtain ⟨part, inside, asks | answers⟩ := mentions
    · cases asks.symm.trans (texts later member part inside).1
    · cases answers.symm.trans (texts later member part inside).2
  · have all : ∀ i < 6, Stays consultedInput (str "be brief\n") i := by decide +kernel
    exact all i (List.getElem?_eq_some_iff.mp there).1

end Opencodepp.Agent
