import Opencodepp.Memory.SessionMemory
import Opencodepp.Memory.Upsert

/-!
# Recalling what was remembered

The plan of a task looks into the workspace memory with the words of the request: its runs of
letters and digits, in lower case, without the short and the common ones.  An entry is recalled
when a word stands somewhere in its key, its value or a tag, in any case.  `recall_after_write`
says what that is worth over any run: what was stored is recalled by exactly the requests that
ask for it, next to what was recalled before, and no request in another workspace sees it.
-/

set_option autoImplicit false

namespace Opencodepp.Memory

open Opencodepp.Core
open Opencodepp.Library
open Opencodepp.Store

/-! ## The words of a request -/

/-- Words that say nothing. -/
def kStop : List Bytes :=
  ["about", "after", "again", "also", "because", "before", "being", "build", "change", "could",
    "does", "edit", "from", "have", "into", "just", "like", "make", "need", "only", "other",
    "please", "should", "some", "than", "that", "their", "them", "then", "there", "these", "they",
    "this", "those", "through", "under", "very", "want", "were", "what", "when", "where", "which",
    "while", "with", "would", "your"].map str

/-- The words found so far and the one that is being read. -/
structure Harvest where
  out : List Bytes
  cur : Bytes
  deriving Repr, DecidableEq

/-- Whether a word is long enough and says something. -/
def isKeyword (word : Bytes) : Bool := 4 ≤ word.length && !kStop.contains word

def Harvest.flush (h : Harvest) : Harvest :=
  ⟨if isKeyword h.cur && !h.out.contains h.cur then h.out ++ [h.cur] else h.out, []⟩

def Harvest.step (h : Harvest) (c : UInt8) : Harvest :=
  if isAlnum c then { h with cur := h.cur ++ [lowerByte c] } else h.flush

def keywordsFromText (text : Bytes) : List Bytes := (text.foldl Harvest.step ⟨[], []⟩).flush.out

/-! ## Matching -/

/-- Whether a keyword stands in an entry. -/
def Entry.mentions (e : Entry) (kw : Bytes) : Bool :=
  containsCi e.key kw || containsCi e.value kw || e.tags.any fun t => containsCi t kw

def matchEntries (s : MemStore) (workspaceRoot : Bytes) (keywords : List Bytes) : List Entry :=
  if keywords = [] then []
  else (readEntries s workspaceRoot none).filter fun e => keywords.any e.mentions

/-! ## What a request asks for -/

/-- The runs of letters and digits of a text, in lower case. -/
def wordsOf (text : Bytes) : List Bytes :=
  (text.splitOnP fun b => !isAlnum b).map (·.map lowerByte)

/-- A text in any case stands in another. -/
def StandsIn (word hay : Bytes) : Prop :=
  ∃ before after, hay.map lowerByte = before ++ word ++ after

/-- A request asks for an entry with one of its words. -/
def AsksFor (text : Bytes) (e : Entry) : Prop :=
  ∃ word ∈ wordsOf text, 4 ≤ word.length ∧ word ∉ kStop ∧
    (StandsIn word e.key ∨ StandsIn word e.value ∨ ∃ t ∈ e.tags, StandsIn word t)

/-- Words go into the harvest each once, in their order. -/
def Harvest.take (out : List Bytes) (word : Bytes) : List Bytes := (Harvest.flush ⟨out, word⟩).out

/-- Reading a text gives the words of the text, the first one behind what was read before. -/
theorem harvest_eq (text : Bytes) : ∀ h : Harvest,
    (text.foldl Harvest.step h).flush.out =
      ((wordsOf text).modifyHead (h.cur ++ ·)).foldl Harvest.take h.out := by
  induction text with
  | nil =>
      intro h
      have pieces : wordsOf [] = [[]] := rfl
      rw [pieces]
      show h.flush.out = Harvest.take h.out (h.cur ++ [])
      rw [List.append_nil]
      rfl
  | cons c rest inductionHypothesis =>
      intro h
      rw [List.foldl_cons, inductionHypothesis]
      have pieces : wordsOf (c :: rest) =
          if isAlnum c then (wordsOf rest).modifyHead (lowerByte c :: ·)
          else [] :: wordsOf rest := by
        unfold wordsOf
        rw [List.splitOnP_cons_eq_if_modifyHead]
        cases isAlnum c with
        | true =>
            show List.map _ (List.modifyHead _ _) = List.modifyHead _ (List.map _ _)
            cases rest.splitOnP fun b => !isAlnum b <;> rfl
        | false => rfl
      rw [pieces]
      unfold Harvest.step
      by_cases inside : isAlnum c = true
      · rw [if_pos inside, if_pos inside, List.modifyHead_modifyHead]
        have joined : ((h.cur ++ ·) ∘ (lowerByte c :: ·)) =
            fun word : Bytes => (h.cur ++ [lowerByte c]) ++ word := by
          funext word
          simp
        rw [joined]
      · rw [if_neg inside, if_neg inside, List.modifyHead_cons, List.append_nil, List.foldl_cons]
        have start : (wordsOf rest).modifyHead (h.flush.cur ++ ·) = wordsOf rest := by
          show (wordsOf rest).modifyHead (fun word => [] ++ word) = _
          cases wordsOf rest <;> rfl
        rw [start]
        rfl

theorem mem_take {out : List Bytes} {word kw : Bytes} :
    kw ∈ Harvest.take out word ↔ kw ∈ out ∨ (kw = word ∧ isKeyword word = true) := by
  unfold Harvest.take Harvest.flush
  dsimp only
  split
  · next new =>
      simp only [Bool.and_eq_true] at new
      rw [List.mem_append, List.mem_singleton]
      simp [new.1]
  · next old =>
      refine ⟨.inl, fun either => either.elim id fun both => ?_⟩
      simp only [both.2, Bool.true_and, Bool.not_eq_true, Bool.not_eq_false'] at old
      exact both.1 ▸ List.contains_iff_mem.mp old

theorem mem_foldl_take {kw : Bytes} (words : List Bytes) : ∀ {out : List Bytes},
    kw ∈ words.foldl Harvest.take out ↔ kw ∈ out ∨ (kw ∈ words ∧ isKeyword kw = true) := by
  induction words with
  | nil => simp
  | cons word rest inductionHypothesis =>
      intro out
      rw [List.foldl_cons, inductionHypothesis, mem_take, List.mem_cons]
      grind

/-- **The keywords** are the words of the text that are long enough and say something. -/
theorem mem_keywordsFromText {text kw : Bytes} :
    kw ∈ keywordsFromText text ↔ kw ∈ wordsOf text ∧ 4 ≤ kw.length ∧ kw ∉ kStop := by
  have start : (wordsOf text).modifyHead (([] : Bytes) ++ ·) = wordsOf text := by
    cases wordsOf text <;> rfl
  unfold keywordsFromText
  rw [harvest_eq, start, mem_foldl_take]
  simp [isKeyword]

theorem containsCi_iff {hay word : Bytes} (some_ : word ≠ []) (lower : word.map lowerByte = word) :
    containsCi hay word = true ↔ StandsIn word hay := by
  unfold containsCi StandsIn
  rw [Bool.and_eq_true, occursIn_iff, lower]
  exact ⟨And.right, fun there => ⟨by simpa using some_, there⟩⟩

theorem lowerByte_lowerByte (b : UInt8) : lowerByte (lowerByte b) = lowerByte b := by
  unfold lowerByte
  split
  · next upper =>
      simp only [Bool.and_eq_true, decide_eq_true_eq] at upper
      rw [if_neg]
      simp only [Bool.and_eq_true, decide_eq_true_eq, not_and]
      grind
  · rfl

/-- The words of a text are in lower case. -/
theorem lower_of_mem_wordsOf {text word : Bytes} (member : word ∈ wordsOf text) :
    word.map lowerByte = word := by
  obtain ⟨piece, -, rfl⟩ := List.mem_map.mp member
  rw [List.map_map]
  exact List.map_congr_left fun b _ => lowerByte_lowerByte b

/-- An entry is matched by the keywords of a request exactly when the request asks for it. -/
theorem any_mentions_iff (text : Bytes) (e : Entry) :
    (keywordsFromText text).any e.mentions = true ↔ AsksFor text e := by
  rw [List.any_eq_true]
  unfold AsksFor
  refine exists_congr fun word => ?_
  rw [mem_keywordsFromText, and_assoc, and_assoc]
  refine and_congr_right fun member => and_congr_right fun long => and_congr_right fun _ => ?_
  have some_ : word ≠ [] := fun nothing => by simp [nothing] at long
  have lower := lower_of_mem_wordsOf member
  unfold Entry.mentions
  simp only [Bool.or_eq_true, List.any_eq_true, containsCi_iff some_ lower, or_assoc]

instance (text : Bytes) (e : Entry) : Decidable (AsksFor text e) :=
  decidable_of_iff _ (any_mentions_iff text e)

/-- What is recalled are the entries of the workspace that the request asks for, in order. -/
theorem matchEntries_eq (s : MemStore) (root text : Bytes) :
    matchEntries s root (keywordsFromText text) =
      (readEntries s root none).filter fun e => AsksFor text e := by
  have same : (fun e : Entry => (keywordsFromText text).any e.mentions) =
      fun e => decide (AsksFor text e) := by
    funext e
    exact Bool.eq_iff_iff.mpr ((any_mentions_iff text e).trans decide_eq_true_iff.symm)
  unfold matchEntries
  split
  · next nothing =>
      refine (List.filter_eq_nil_iff.mpr fun e _ asks => ?_).symm
      have matched := (any_mentions_iff text e).mpr (of_decide_eq_true asks)
      rw [nothing] at matched
      cases matched
  · rw [same]

/-! ## After a write -/

/-- An entry in the store is the one that was given, but for its key, its scope and its times. -/
theorem stored_placed (root : Bytes) (caps : MemoryCfg) (existing : List Entry) (e : Entry) :
    (placed root caps existing e).stored.value = e.value ∧
      (placed root caps existing e).stored.tags = e.tags ∧
      (existing.length < caps.maxEntries.toNat →
        (placed root caps existing e).stored.key = e.key) := by
  have fields : (placed root caps existing e).value = e.value ∧
      (placed root caps existing e).tags = e.tags := by
    obtain ⟨key, form, -⟩ := recycled_eq existing caps { e with scope := workspaceScope root }
    unfold placed
    rw [form]
    exact ⟨rfl, rfl⟩
  refine ⟨fields.1, fields.2, fun room => ?_⟩
  show (placed root caps existing e).key = e.key
  unfold placed recycled
  rw [if_neg (Nat.not_le.mpr room)]

/-- **What was stored is recalled by exactly the requests that ask for it.**  After any run of
writes and checkpoints, an accepted write puts its entry, under its own key unless the workspace
is full, among those of the workspace; from then on a request recalls, of these, those that it
asks for.  In other workspaces every request recalls what it did. -/
theorem recall_after_write (commands : List Command) {root : Bytes} {e : Entry} {caps : MemoryCfg}
    {id : Bytes} {s' : MemStore}
    (ok : writeEntry (runCommands commands) root e caps = .ok (id, s')) :
    ∃ stored : Entry, stored.value = e.value ∧ stored.tags = e.tags ∧
      ((readEntries (runCommands commands) root none).length < caps.maxEntries.toNat →
        stored.key = e.key) ∧
      readEntries s' root none =
        Keyed.put Entry.key stored (readEntries (runCommands commands) root none) ∧
      (∀ text, matchEntries s' root (keywordsFromText text) =
        (Keyed.put Entry.key stored (readEntries (runCommands commands) root none)).filter
          fun e => AsksFor text e) ∧
      (∀ text, stored ∈ matchEntries s' root (keywordsFromText text) ↔ AsksFor text stored) ∧
      ∀ other, other ≠ root → ∀ text, matchEntries s' other (keywordsFromText text) =
        matchEntries (runCommands commands) other (keywordsFromText text) := by
  obtain ⟨-, after, elsewhere⟩ := readEntries_writeEntry (kept_runCommands commands) ok
  obtain ⟨value, tags, key⟩ :=
    stored_placed root caps (readEntries (runCommands commands) root none) e
  refine ⟨_, value, tags, key, after, fun text => ?_, fun text => ?_,
    fun other different text => ?_⟩
  · rw [matchEntries_eq, after]
  · rw [matchEntries_eq, after, List.mem_filter, decide_eq_true_iff]
    exact ⟨And.right, fun asks => ⟨Keyed.mem_put_self _ _ _, asks⟩⟩
  · rw [matchEntries_eq, matchEntries_eq, elsewhere other different none]

/-- A rule that is stored in a full workspace is recalled by a request that names what it says. -/
theorem recall_after_write_full : ∃ id s' stored,
    writeEntry (runCommands [.write (noted "a" "1"), .write (noted "b" "2")]) (str "/w")
        (note "style" "Tabs, never spaces") twoSlots = .ok (id, s') ∧
      stored.value = str "Tabs, never spaces" ∧
      stored ∈ matchEntries s' (str "/w") (keywordsFromText (str "convert this to TABS")) := by
  have ok : ∃ id s', writeEntry (runCommands [.write (noted "a" "1"), .write (noted "b" "2")])
      (str "/w") (note "style" "Tabs, never spaces") twoSlots = .ok (id, s') := ⟨_, _, rfl⟩
  obtain ⟨id, s', ok⟩ := ok
  obtain ⟨stored, value, -, -, -, -, recalled, -⟩ := recall_after_write _ ok
  have said : StandsIn (str "tabs") stored.value :=
    ⟨[], str ", never spaces", by rw [value]; decide⟩
  refine ⟨id, s', stored, ok, value, (recalled _).mpr ⟨str "tabs", ?_, ?_, ?_, .inr (.inl said)⟩⟩
  · decide
  · decide
  · decide +kernel

end Opencodepp.Memory
