import Opencodepp.Library.Admission
import Opencodepp.Prompt.Context

/-!
# What a plan keeps and what it cuts

The assembly decides on every workspace entry and every message, and what it decides is all that
is in the plan: the kept entries make up the system text, the kept messages follow it, and every
cut has its event.  The decisions on the entries are made for each alone, those on the older
messages one beside the other.  `cut_log_exact` relates the decisions, the plan and its log.
-/

set_option autoImplicit false

namespace Opencodepp.Prompt

open Opencodepp.Core
open Opencodepp.Library
open Opencodepp.Msg

/-! ## Logs -/

namespace CutLog

/-- A log with more cuts behind it. -/
def add (out : CutLog) (events : List ContextEvent) : CutLog where
  events := out.events ++ events
  omitted := out.omitted ++ (events.filter (·.kind = .omitted)).map (·.what)
  truncated := out.truncated ++ (events.filter (·.kind = .truncated)).map (·.what)

@[simp] theorem add_nil (out : CutLog) : out.add [] = out := by
  simp [add]

theorem add_add (out : CutLog) (events more : List ContextEvent) :
    (out.add events).add more = out.add (events ++ more) := by
  simp [add]

theorem pushOmit_eq_add (out : CutLog) (what reason : Bytes) :
    out.pushOmit what reason = out.add [⟨.omitted, what, reason⟩] := by
  simp [pushOmit, add]

theorem pushTruncate_eq_add (out : CutLog) (what reason : Bytes) :
    out.pushTruncate what reason = out.add [⟨.truncated, what, reason⟩] := by
  simp [pushTruncate, add]

end CutLog

/-! ## Decisions -/

/-- Items with what was decided on them: kept, or left out for a reason. -/
abbrev Decided (α : Type) := List (α × Option Bytes)

section Decided

variable {α : Type}

def keptOf (decided : Decided α) : List α := (decided.filter (·.2.isNone)).map (·.1)

/-- One event for each item that is left out. -/
def omissions (label : String) (name : α → Bytes) (decided : Decided α) : List ContextEvent :=
  decided.filterMap fun item =>
    item.2.map fun reason => ⟨.omitted, str label ++ name item.1, reason⟩

theorem keptOf_cons_none (a : α) (rest : Decided α) :
    keptOf ((a, none) :: rest) = a :: keptOf rest := rfl

theorem keptOf_cons_some (a : α) (reason : Bytes) (rest : Decided α) :
    keptOf ((a, some reason) :: rest) = keptOf rest := rfl

theorem keptOf_append (before after : Decided α) :
    keptOf (before ++ after) = keptOf before ++ keptOf after := by
  simp [keptOf]

theorem keptOf_sublist (decided : Decided α) : (keptOf decided).Sublist (decided.map (·.1)) :=
  List.filter_sublist.map _

theorem keptOf_all (items : List α) : keptOf (items.map fun a => (a, none)) = items := by
  induction items with
  | nil => rfl
  | cons a rest inductionHypothesis => exact congrArg (a :: ·) inductionHypothesis

theorem omissions_append (label : String) (name : α → Bytes) (before after : Decided α) :
    omissions label name (before ++ after) =
      omissions label name before ++ omissions label name after :=
  List.filterMap_append

theorem omissions_all (label : String) (name : α → Bytes) (items : List α) :
    omissions label name (items.map fun a => (a, none)) = [] := by
  simp [omissions]

end Decided

/-! ## Workspace entries -/

/-- The reason for which something too dear is left out. -/
def overBudget (tokens : Nat) : Bytes := str "budget (" ++ decimal tokens ++ str " tokens)"

/-- Why an entry is left out, if it is. -/
def entryReason (input : ContextInput) (e : EnvEntry) : Option Bytes :=
  if input.edgeMode then some (str "edge_mode")
  else if tierBudget input < entryTokens e then some (overBudget (entryTokens e))
  else none

def decideEntries (input : ContextInput) (entries : List EnvEntry) : Decided EnvEntry :=
  entries.map fun e => (e, entryReason input e)

/-- The lines of the system text. -/
def textsOf (entries : List EnvEntry) : Bytes := entries.flatMap fun e => e.text ++ [0x0a]

theorem decideEntries_items (input : ContextInput) (entries : List EnvEntry) :
    (decideEntries input entries).map (·.1) = entries := by
  unfold decideEntries
  rw [List.map_map]
  exact List.map_id _

theorem tierEntry_kept {input : ContextInput} {e : EnvEntry} (kept : entryReason input e = none)
    (label : String) (acc : SystemText) :
    tierEntry label input.edgeMode (tierBudget input) acc e =
      { acc with text := acc.text ++ e.text ++ [0x0a] } := by
  unfold entryReason at kept
  unfold tierEntry
  split_ifs at kept with edge exceeds
  rw [if_neg edge, if_neg exceeds]

theorem tierEntry_omitted {input : ContextInput} {e : EnvEntry} {reason : Bytes}
    (omitted : entryReason input e = some reason) (label : String) (acc : SystemText) :
    tierEntry label input.edgeMode (tierBudget input) acc e =
      { acc with log := acc.log.add [⟨.omitted, str label ++ e.key, reason⟩] } := by
  unfold entryReason at omitted
  unfold tierEntry
  dsimp only
  rw [CutLog.pushOmit_eq_add, CutLog.pushOmit_eq_add]
  split_ifs at omitted with edge exceeds
  · rw [if_pos edge, Option.some.inj omitted]
  · rw [if_neg edge, if_pos exceeds, ← Option.some.inj omitted]
    rfl

/-- The pass over the entries of one kind. -/
theorem foldl_tierEntry (input : ContextInput) (label : String) (entries : List EnvEntry)
    (acc : SystemText) :
    entries.foldl (tierEntry label input.edgeMode (tierBudget input)) acc =
      ⟨acc.text ++ textsOf (keptOf (decideEntries input entries)),
        acc.log.add (omissions label (·.key) (decideEntries input entries))⟩ := by
  induction entries generalizing acc with
  | nil => simp [decideEntries, keptOf, textsOf, omissions]
  | cons e rest inductionHypothesis =>
      have split : decideEntries input (e :: rest) =
          (e, entryReason input e) :: decideEntries input rest := rfl
      rw [List.foldl_cons, inductionHypothesis, split]
      cases decided : entryReason input e with
      | none =>
          rw [tierEntry_kept decided, keptOf_cons_none]
          simp [textsOf, omissions]
      | some reason =>
          rw [tierEntry_omitted decided, keptOf_cons_some, CutLog.add_add]
          simp [omissions]

theorem systemText_eq (input : ContextInput) (core : Bytes) :
    systemText input core =
      ⟨core ++ textsOf (keptOf (decideEntries input input.env) ++
          keptOf (decideEntries input input.repo)),
        CutLog.empty.add (omissions "env " (·.key) (decideEntries input input.env) ++
          omissions "repo " (·.key) (decideEntries input input.repo))⟩ := by
  unfold systemText
  dsimp only
  rw [foldl_tierEntry, foldl_tierEntry, CutLog.add_add]
  simp [textsOf]

/-! ## The newest message -/

/-- The newest message is shortened: it is the user's, and its text is too long. -/
def shortens (m : Message) : Bool :=
  m.role = .user && (truncateText m.contentText newestUserFloor).2

/-- The newest message as it is sent. -/
def sentMessage (m : Message) : Message :=
  if shortens m then { m with parts := [.text (truncateText m.contentText newestUserFloor).1] }
  else m

def sentTokens (m : Message) : Nat :=
  if shortens m then estimateMessageTokens (sentMessage m) else messageTokens m

def sentEvents (m : Message) : List ContextEvent :=
  if shortens m then [⟨.truncated, str "message " ++ m.id, str "kNewestUserFloor"⟩] else []

/-- Bisection below a text that is too long stays below its length. -/
theorem bisect_lt {text : Bytes} {budget : Nat} (long : budget < estimateTokens text)
    (fuel : Nat) : ∀ lo hi : Nat, lo < text.length → hi ≤ text.length →
      bisect text budget fuel lo hi < text.length := by
  induction fuel with
  | zero => exact fun lo hi below _ => below
  | succ fuel inductionHypothesis =>
      intro lo hi below within
      unfold bisect
      split
      · dsimp only
        split
        · rename_i fits
          refine inductionHypothesis _ _ ?_ within
          by_contra whole
          rw [List.take_of_length_le (Nat.le_of_not_lt whole)] at fits
          exact absurd long (Nat.not_lt.mpr fits)
        · exact inductionHypothesis _ _ below (by omega)
      · exact below

/-- A cut text is a proper part of the text from its start, and the mark. -/
theorem truncateText_of_cut {text : Bytes} {budget : Nat}
    (cut : (truncateText text budget).2 = true) :
    ∃ n < text.length, (truncateText text budget).1 = text.take n ++ str " [context truncated]" := by
  unfold truncateText at cut ⊢
  split at cut
  · cases cut
  · rename_i long
    have long := Nat.not_le.mp long
    have some_ : 0 < text.length := by
      by_contra none_
      rw [List.length_eq_zero_iff.mp (Nat.eq_zero_of_not_pos none_)] at long
      exact absurd long (Nat.not_lt_zero budget)
    rw [if_neg (Nat.not_le.mpr long)]
    exact ⟨_, bisect_lt long _ 0 text.length some_ (Nat.le_refl _), rfl⟩

/-- A message is sent whole, or it is the user's and is sent as the start of its text. -/
inductive SentAs (m : Message) : Message → List ContextEvent → Prop
  | whole : SentAs m m []
  | shortened (n : Nat) (proper : n < m.contentText.length) (role : m.role = .user) :
      SentAs m { m with parts := [.text (m.contentText.take n ++ str " [context truncated]")] }
        [⟨.truncated, str "message " ++ m.id, str "kNewestUserFloor"⟩]

theorem sentAs (m : Message) : SentAs m (sentMessage m) (sentEvents m) := by
  unfold sentMessage sentEvents
  cases short : shortens m with
  | false => exact .whole
  | true =>
      unfold shortens at short
      obtain ⟨role, cut⟩ := (Bool.and_eq_true ..).mp short
      obtain ⟨n, proper, text⟩ := truncateText_of_cut cut
      rw [if_pos rfl, if_pos rfl, text]
      exact .shortened n proper (of_decide_eq_true role)

/-! ## The history -/

/-- The messages before those that are all kept. -/
def olderMessages (input : ContextInput) : List Message := input.messages.take (tierOne input)

/-- What the system text and the tools take up. -/
def fixedTokens (input : ContextInput) (sys : SystemText) : Nat :=
  estimateTokens sys.text % 2 ^ 32 + toolTokens input

/-- The older messages, admitted one beside the other. -/
def olderVerdicts (input : ContextInput) (sys : SystemText) : List (Message × Bool) :=
  Admission.verdicts messageTokens (resolveCap input) (fixedTokens input sys)
    (olderMessages input)

def decideMessages (verdicts : List (Message × Bool)) : Decided Message :=
  verdicts.map fun v => (v.1, if v.2 then none else some (overBudget (messageTokens v.1)))

theorem decideMessages_items (verdicts : List (Message × Bool)) :
    (decideMessages verdicts).map (·.1) = verdicts.map (·.1) := by
  unfold decideMessages
  rw [List.map_map]
  rfl

theorem keptOf_decideMessages (verdicts : List (Message × Bool)) :
    keptOf (decideMessages verdicts) = Admission.taken verdicts := by
  induction verdicts with
  | nil => rfl
  | cons v rest inductionHypothesis =>
      obtain ⟨m, taken⟩ := v
      cases taken with
      | true => exact congrArg (m :: ·) inductionHypothesis
      | false => exact inductionHypothesis

section Pass

variable {cap fixed tier size : Nat}

theorem windowStep_omitted {acc : Window} {m : Message} {i : Nat} (older : i < tier)
    (exceeds : cap < acc.total + messageTokens m + fixed) :
    windowStep cap fixed tier size acc (m, i) =
      ⟨acc.kept, acc.total,
        acc.log.add [⟨.omitted, str "message " ++ m.id, overBudget (messageTokens m)⟩]⟩ := by
  unfold windowStep
  dsimp only
  rw [if_pos (by simpa using ⟨older, exceeds⟩), CutLog.pushOmit_eq_add]
  rfl

theorem windowStep_kept {acc : Window} {m : Message} {i : Nat}
    (kept : i < tier → acc.total + messageTokens m + fixed ≤ cap) (inner : i + 1 ≠ size) :
    windowStep cap fixed tier size acc (m, i) =
      { acc with kept := acc.kept ++ [m], total := acc.total + messageTokens m } := by
  unfold windowStep
  dsimp only
  rw [if_neg (by simpa using kept), if_neg (by simp [inner])]

theorem windowStep_newest {acc : Window} {m : Message} {i : Nat} (recent : tier ≤ i)
    (last : i + 1 = size) :
    windowStep cap fixed tier size acc (m, i) =
      ⟨acc.kept ++ [sentMessage m], acc.total + sentTokens m, acc.log.add (sentEvents m)⟩ := by
  unfold windowStep sentMessage sentTokens sentEvents
  dsimp only
  rw [if_neg (by simp [Nat.not_lt.mpr recent])]
  by_cases short : shortens m = true
  · have here : (decide (m.role = Role.user) && decide (i + 1 = size) &&
        (truncateText m.contentText newestUserFloor).2) = true := by
      obtain ⟨role, cut⟩ := (Bool.and_eq_true ..).mp short
      rw [role, cut, decide_eq_true last]
      rfl
    rw [if_pos here, if_pos short, if_pos short, if_pos short, CutLog.pushTruncate_eq_add,
      sentMessage, if_pos short]
  · have here : ¬(decide (m.role = Role.user) && decide (i + 1 = size) &&
        (truncateText m.contentText newestUserFloor).2) = true := by
      intro all
      obtain ⟨both, cut⟩ := (Bool.and_eq_true ..).mp all
      obtain ⟨role, -⟩ := (Bool.and_eq_true ..).mp both
      exact short ((Bool.and_eq_true ..).mpr ⟨role, cut⟩)
    rw [if_neg here, if_neg short, if_neg short, if_neg short, CutLog.add_nil]

/-- The pass over older messages admits them one beside the other. -/
theorem foldl_windowStep_older (inner : tier < size) (older : List Message) :
    ∀ (k : Nat) (acc : Window), k + older.length ≤ tier →
      (older.zipIdx k).foldl (windowStep cap fixed tier size) acc =
        ⟨acc.kept ++ Admission.taken
            (Admission.verdicts messageTokens cap (acc.total + fixed) older),
          acc.total + Admission.total messageTokens (Admission.taken
            (Admission.verdicts messageTokens cap (acc.total + fixed) older)),
          acc.log.add (omissions "message " (·.id) (decideMessages
            (Admission.verdicts messageTokens cap (acc.total + fixed) older)))⟩ := by
  induction older with
  | nil =>
      intro k acc _
      simp [Admission.verdicts, Admission.taken, Admission.total, decideMessages, omissions]
  | cons m rest inductionHypothesis =>
      intro k acc room
      rw [List.length_cons] at room
      rw [List.zipIdx_cons, List.foldl_cons]
      by_cases fits : acc.total + fixed + messageTokens m ≤ cap
      · have shifted : acc.total + messageTokens m + fixed =
            acc.total + fixed + messageTokens m := Nat.add_right_comm ..
        rw [windowStep_kept (fun _ => shifted ▸ fits) (by omega),
          inductionHypothesis _ _ (by omega), Admission.verdicts_cons_fits fits,
          Admission.taken_cons_true, Admission.total_cons]
        dsimp only
        rw [shifted, List.append_assoc, Nat.add_assoc acc.total (messageTokens m)]
        rfl
      · have exceeds : cap < acc.total + messageTokens m + fixed := by omega
        rw [windowStep_omitted (by omega) exceeds, inductionHypothesis _ _ (by omega),
          Admission.verdicts_cons_exceeds (Nat.not_le.mp fits), Admission.taken_cons_false]
        dsimp only
        rw [CutLog.add_add]
        rfl

/-- The pass keeps the recent messages before the newest. -/
theorem foldl_windowStep_recent (recent : List Message) :
    ∀ (k : Nat) (acc : Window), tier ≤ k → k + recent.length < size →
      (recent.zipIdx k).foldl (windowStep cap fixed tier size) acc =
        { acc with
          kept := acc.kept ++ recent
          total := acc.total + Admission.total messageTokens recent } := by
  induction recent with
  | nil =>
      intro k acc _ _
      simp [Admission.total]
  | cons m rest inductionHypothesis =>
      intro k acc from_ room
      rw [List.length_cons] at room
      rw [List.zipIdx_cons, List.foldl_cons, windowStep_kept (fun older => by omega) (by omega),
        inductionHypothesis _ _ (by omega) (by omega), Admission.total_cons]
      dsimp only
      rw [List.append_assoc, Nat.add_assoc]
      rfl

end Pass

theorem tierOneFrom_lt (keep : Nat) {hist : List Message} (some_ : hist ≠ []) :
    tierOneFrom keep hist < hist.length := by
  have positive : 0 < hist.length := List.length_pos_iff.mpr some_
  unfold tierOneFrom
  dsimp only
  split
  · rename_i i found
    have member := List.mem_of_mem_take (List.mem_of_getLast? found)
    have inside := (List.mem_filter.mp member).1
    exact List.mem_range.mp (List.mem_reverse.mp inside)
  · omega

theorem tierOne_lt {input : ContextInput} (some_ : input.messages ≠ []) :
    tierOne input < input.messages.length := tierOneFrom_lt _ some_

/-- There is a newest message, and it is one of those that are kept. -/
theorem exists_newest {input : ContextInput} (some_ : input.messages ≠ []) :
    ∃ recent newest, input.messages.drop (tierOne input) = recent ++ [newest] := by
  have inside := tierOne_lt some_
  have rest : input.messages.drop (tierOne input) ≠ [] := by
    intro none_
    have length := congrArg List.length none_
    rw [List.length_drop, List.length_nil] at length
    omega
  exact ⟨_, _, (List.dropLast_append_getLast rest).symm⟩

/-- The pass over the history. -/
theorem messageWindow_eq {input : ContextInput} {recent : List Message} {newest : Message}
    (split : input.messages.drop (tierOne input) = recent ++ [newest]) (sys : SystemText) :
    messageWindow input sys =
      ⟨Admission.taken (olderVerdicts input sys) ++ recent ++ [sentMessage newest],
        Admission.total messageTokens (Admission.taken (olderVerdicts input sys)) +
          Admission.total messageTokens recent + sentTokens newest,
        sys.log.add (omissions "message " (·.id) (decideMessages (olderVerdicts input sys)) ++
          sentEvents newest)⟩ := by
  have whole : input.messages = olderMessages input ++ (recent ++ [newest]) := by
    rw [← split]
    exact (List.take_append_drop ..).symm
  have lengths : (olderMessages input).length + (recent.length + 1) = input.messages.length := by
    rw [whole]
    simp
  have inner : tierOne input < input.messages.length := by
    by_contra past
    rw [List.drop_eq_nil_of_le (Nat.not_lt.mp past)] at split
    simp at split
  have olderLength : (olderMessages input).length = tierOne input :=
    List.length_take_of_le (Nat.le_of_lt inner)
  unfold messageWindow
  dsimp only
  rw [show input.messages.zipIdx = _ from congrArg List.zipIdx whole, List.zipIdx_append,
    List.zipIdx_append, List.foldl_append, List.foldl_append,
    foldl_windowStep_older inner (olderMessages input) 0 _ (by omega),
    foldl_windowStep_recent recent _ _ (by omega) (by omega)]
  rw [List.zipIdx_cons, List.zipIdx_nil, List.foldl_cons, List.foldl_nil,
    windowStep_newest (by omega) (by omega)]
  simp only [Nat.zero_add, List.nil_append, CutLog.add_add]
  rfl

/-! ## The log -/

/-- What was decided on everything in an input; the newest message is always sent. -/
structure Decisions where
  env : Decided EnvEntry
  repo : Decided EnvEntry
  history : Decided Message
  newest : Message
  sent : Message
  shortening : List ContextEvent

/-- The plan keeps what the decisions keep, in order, and its log has the cuts they make. -/
structure ExactLog (input : ContextInput) (plan : ContextPlan) (d : Decisions) : Prop where
  env : d.env.map (·.1) = input.env
  repo : d.repo.map (·.1) = input.repo
  history : d.history.map (·.1) ++ [d.newest] = input.messages
  sent : SentAs d.newest d.sent d.shortening
  messages : ∃ core, coreText input = some core ∧
    plan.messages =
      systemMessage (injectSchema input (core ++ textsOf (keptOf d.env ++ keptOf d.repo))) ::
        (keptOf d.history ++ [d.sent])
  ordered : (keptOf d.history ++ [d.newest]).Sublist input.messages
  events : plan.events = omissions "env " (·.key) d.env ++ omissions "repo " (·.key) d.repo ++
    omissions "message " (·.id) d.history ++ d.shortening
  omitted : plan.omitted = (plan.events.filter (·.kind = .omitted)).map (·.what)
  truncated : plan.truncated = (plan.events.filter (·.kind = .truncated)).map (·.what)

/-- The decisions on the messages before the newest. -/
def decideHistory (input : ContextInput) (sys : SystemText) : Decided Message :=
  decideMessages (olderVerdicts input sys) ++
    (input.messages.drop (tierOne input)).dropLast.map fun m => (m, none)

section History

variable {input : ContextInput} {recent : List Message} {newest : Message}

theorem decideHistory_items (split : input.messages.drop (tierOne input) = recent ++ [newest])
    (sys : SystemText) :
    (decideHistory input sys).map (·.1) ++ [newest] = input.messages := by
  unfold decideHistory olderVerdicts
  rw [split, List.dropLast_concat, List.map_append, decideMessages_items,
    Admission.verdicts_items, List.map_map, List.append_assoc]
  show olderMessages input ++ (recent.map id ++ [newest]) = input.messages
  rw [List.map_id, ← split]
  exact List.take_append_drop ..

theorem keptOf_decideHistory (split : input.messages.drop (tierOne input) = recent ++ [newest])
    (sys : SystemText) :
    keptOf (decideHistory input sys) = Admission.taken (olderVerdicts input sys) ++ recent := by
  unfold decideHistory
  rw [split, List.dropLast_concat, keptOf_append, keptOf_decideMessages, keptOf_all]

theorem omissions_decideHistory (input : ContextInput) (sys : SystemText) :
    omissions "message " (·.id) (decideHistory input sys) =
      omissions "message " (·.id) (decideMessages (olderVerdicts input sys)) := by
  unfold decideHistory
  rw [omissions_append, omissions_all, List.append_nil]

end History

/-- **The log is exact.**  In every plan there is the system message with the entries that were
kept, then the messages that were kept, in order and whole but for the newest, which is always
there; and the log has one event for everything left out or shortened, in the order of the input,
and nothing else. -/
theorem cut_log_exact {input : ContextInput} {plan : ContextPlan}
    (assembled : assembleContext input = .ok plan) : ∃ d, ExactLog input plan d := by
  obtain ⟨some_, core, found, planned⟩ := assembleContext_eq_ok.mp assembled
  obtain ⟨recent, newest, split⟩ := exists_newest some_
  have window := messageWindow_eq split (systemText input core)
  have log : plan.toCutLog = CutLog.empty.add
      (omissions "env " (·.key) (decideEntries input input.env) ++
        omissions "repo " (·.key) (decideEntries input input.repo) ++
        omissions "message " (·.id) (decideHistory input (systemText input core)) ++
        sentEvents newest) := by
    rw [planned]
    show (messageWindow input (systemText input core)).log = _
    rw [window, omissions_decideHistory, systemText_eq, CutLog.add_add, ← List.append_assoc]
  refine ⟨⟨decideEntries input input.env, decideEntries input input.repo,
    decideHistory input (systemText input core), newest, sentMessage newest,
    sentEvents newest⟩, ?_⟩
  exact
    { env := decideEntries_items input input.env
      repo := decideEntries_items input input.repo
      history := decideHistory_items split _
      sent := sentAs newest
      messages := by
        refine ⟨core, found, ?_⟩
        rw [planned]
        show systemMessage (injectSchema input (systemText input core).text) ::
          (messageWindow input (systemText input core)).kept = _
        rw [window, keptOf_decideHistory split, systemText_eq]
      ordered := by
        have items := decideHistory_items split (systemText input core)
        have sub := (keptOf_sublist (decideHistory input (systemText input core))).append_right
          [newest]
        rw [items] at sub
        exact sub
      events := by
        rw [log]
        rfl
      omitted := by
        rw [log]
        rfl
      truncated := by
        rw [log]
        rfl }

/-- An input with one entry, three short messages and no tools. -/
def shortInput : ContextInput where
  registry := some [⟨str "SYSTEM_BASE", [⟨.system, str "be brief"⟩]⟩]
  systemIds := []
  messages := [⟨str "m1", str "s", .user, [], [.text (str "explain x")], 0⟩,
    ⟨str "m2", str "s", .assistant, [], [.text (str "x is y")], 0⟩,
    ⟨str "m3", str "s", .user, [], [.text (str "explain y")], 0⟩]
  tools := []
  wireFamily := str "openai"
  env := [⟨str "memory", str "x lives in a.c"⟩]
  repo := []
  langStyle := []
  examples := []
  contextWindow := 0
  maxOutputTokens := 0
  targetTokens := 3500
  hardCapTokens := 12000
  availableTokens := 0
  recentAssistantTurns := 2
  edgeMode := true
  injectToolSchema := false

theorem assembleContext_shortInput :
    assembleContext shortInput = .ok (contextPlan shortInput (str "be brief\n")) := by
  have found : coreText shortInput = some (str "be brief\n") := by decide +kernel
  exact assembleContext_eq_ok.mpr ⟨by decide, _, found, rfl⟩

theorem cut_log_exact_short :
    ∃ d, ExactLog shortInput (contextPlan shortInput (str "be brief\n")) d :=
  cut_log_exact assembleContext_shortInput

end Opencodepp.Prompt
