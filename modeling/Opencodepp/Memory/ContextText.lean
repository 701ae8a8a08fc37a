import Mathlib.Data.List.Infix
import Opencodepp.Library.Admission
import Opencodepp.Memory.Entry
import Opencodepp.Msg.Tokens

/-!
# The text of a context's entries

The entries that matter for a task are put into its context as lines, one behind the other, as
long as the sum of the estimates of the lines is within a budget.  The budget is promised of the
joined text.  An estimate does not add up, and so the text can cost far more than its lines.  It
does not where the budget also covers the lines that fit it at the dearest rates that they can
have in a longer text (`withinBudget_of_dearest`).
-/

set_option autoImplicit false

namespace Opencodepp.Memory

open Opencodepp.Library
open Opencodepp.Msg

/-- The line of an entry, cut to a number of characters unless that is zero. -/
def toEnvText (e : Entry) (maxChars : UInt32) : Bytes :=
  let text := str "[" ++ kindName e.kind ++ str "] " ++ e.key ++ str ": " ++ e.value
  if 0 < maxChars ∧ maxChars.toNat < text.length then text.take maxChars.toNat else text

section Code

variable (maxEntries : Nat) (maxTokens maxChars : UInt32)

/-- The loop over the entries: the lines that were taken, the sum of their estimates and the text
so far.  A cap of zero is no cap. -/
def contextFrom : List Entry → Nat → UInt32 → Bytes → Bytes
  | [], _, _, out => out
  | e :: rest, count, tokens, out =>
      if maxEntries ≠ 0 ∧ maxEntries ≤ count then out
      else
        let line := toEnvText e maxChars
        if line = [] then contextFrom rest count tokens out
        else
          let lineTokens := UInt32.ofNat (estimateTokens line)
          if maxTokens ≠ 0 ∧ maxTokens < tokens + lineTokens then out
          else
            contextFrom rest (count + 1) (tokens + lineTokens)
              ((if out = [] then out else out ++ [0x0a]) ++ line)

def entriesToContext (entries : List Entry) : Bytes :=
  contextFrom maxEntries maxTokens maxChars entries 0 0 []

/-- The sums that the loop makes, as numbers. -/
def contextSums : List Entry → Nat → UInt32 → List Nat
  | [], _, _ => []
  | e :: rest, count, tokens =>
      if maxEntries ≠ 0 ∧ maxEntries ≤ count then []
      else
        let line := toEnvText e maxChars
        if line = [] then contextSums rest count tokens
        else
          let lineTokens := UInt32.ofNat (estimateTokens line)
          let sum := tokens.toNat + lineTokens.toNat
          if maxTokens ≠ 0 ∧ maxTokens < tokens + lineTokens then [sum]
          else sum :: contextSums rest (count + 1) (tokens + lineTokens)

/-- What is promised of the text: it is within the budget, it is at most so many of the lines of
the entries in their order, and no sum wraps around. -/
structure WithinBudget (entries : List Entry) : Prop where
  affordable :
    estimateTokens (entriesToContext maxEntries maxTokens maxChars entries) ≤ maxTokens.toNat
  lines : ∃ taken, taken.Sublist (entries.map (toEnvText · maxChars)) ∧
    (maxEntries ≠ 0 → taken.length ≤ maxEntries) ∧
    entriesToContext maxEntries maxTokens maxChars entries = [0x0a].intercalate taken
  exact_ : ∀ sum ∈ contextSums maxEntries maxTokens maxChars entries 0 0, sum < 2 ^ 32

end Code

/-! ## Lines -/

theorem toEnvText_ne_nil (e : Entry) (maxChars : UInt32) : toEnvText e maxChars ≠ [] := by
  have some_ : str "[" ++ kindName e.kind ++ str "] " ++ e.key ++ str ": " ++ e.value ≠ [] := by
    intro none_
    simp only [List.append_eq_nil_iff] at none_
    exact absurd none_.1.1.1.1.1 (by decide)
  unfold toEnvText
  dsimp only
  split
  · next cut =>
      intro none_
      have zero := List.take_eq_nil_iff.mp none_
      rcases zero with none_ | empty
      · exact absurd cut.1 (by rw [UInt32.lt_iff_toNat_lt, none_]; decide)
      · exact some_ empty
  · exact some_

theorem intercalate_concat (line : Bytes) : ∀ {taken : List Bytes}, (∀ l ∈ taken, l ≠ []) →
    [0x0a].intercalate (taken ++ [line]) =
      (if [0x0a].intercalate taken = [] then [0x0a].intercalate taken
        else [0x0a].intercalate taken ++ [0x0a]) ++ line := by
  intro taken
  induction taken with
  | nil => exact fun _ => by simp [List.intercalate]
  | cons first rest inductionHypothesis =>
      intro some_
      obtain ⟨here, others⟩ := List.forall_mem_cons.mp some_
      cases rest with
      | nil =>
          have alone : [0x0a].intercalate [first] = first := by simp [List.intercalate]
          rw [alone, if_neg here]
          simp [List.intercalate]
      | cons second rest =>
          have later := inductionHypothesis others
          have whole : [0x0a].intercalate (first :: second :: rest) ≠ [] := by
            rw [intercalate_cons_cons]
            simp
          have inner : [0x0a].intercalate (second :: rest) ≠ [] := by
            obtain ⟨there, -⟩ := List.forall_mem_cons.mp others
            cases rest with
            | nil => simpa [List.intercalate] using there
            | cons third rest =>
                rw [intercalate_cons_cons]
                simp
          rw [if_neg inner] at later
          rw [if_neg whole]
          show [0x0a].intercalate (first :: second :: (rest ++ [line])) = _
          rw [intercalate_cons_cons, intercalate_cons_cons]
          show first ++ 0x0a :: [0x0a].intercalate ((second :: rest) ++ [line]) = _
          rw [later]
          simp

/-! ## The lines that are taken -/

/-- What a line adds to the sum. -/
def lineCost (line : Bytes) : Nat := (UInt32.ofNat (estimateTokens line)).toNat

/-- The lines that the cap on their number lets through. -/
def considered (maxEntries count : Nat) (maxChars : UInt32) (entries : List Entry) : List Bytes :=
  (if maxEntries = 0 then entries else entries.take (maxEntries - count)).map (toEnvText · maxChars)

section Loop

variable {maxEntries : Nat} {maxTokens maxChars : UInt32}

theorem considered_full {count : Nat} (full : maxEntries ≠ 0 ∧ maxEntries ≤ count)
    (entries : List Entry) : considered maxEntries count maxChars entries = [] := by
  unfold considered
  rw [if_neg full.1, Nat.sub_eq_zero_of_le full.2, List.take_zero]
  rfl

theorem considered_cons {count : Nat} (room : ¬(maxEntries ≠ 0 ∧ maxEntries ≤ count)) (e : Entry)
    (rest : List Entry) : considered maxEntries count maxChars (e :: rest) =
      toEnvText e maxChars :: considered maxEntries (count + 1) maxChars rest := by
  unfold considered
  split
  · rfl
  · next capped =>
      have left : maxEntries - count = maxEntries - (count + 1) + 1 := by omega
      rw [left, List.take_succ_cons]
      rfl

/-- No sum makes 32 bits overflow, up to and with the first line that does not fit. -/
def Exact (maxTokens : UInt32) (used : Nat) (lines : List Bytes) : Prop :=
  ∀ line rest, lines = Admission.untilFull lineCost maxTokens.toNat used lines ++ line :: rest →
    used + Admission.total lineCost (Admission.untilFull lineCost maxTokens.toNat used lines) +
      lineCost line < 2 ^ 32

theorem exact_nil (used : Nat) : Exact maxTokens used [] := fun line rest never => by
  cases List.append_eq_nil_iff.mp never.symm with
  | intro _ never => cases never

theorem exact_cons_fits {used : Nat} {line : Bytes} (lines : List Bytes)
    (fits : used + lineCost line ≤ maxTokens.toNat) :
    Exact maxTokens used (line :: lines) ↔ Exact maxTokens (used + lineCost line) lines := by
  unfold Exact
  rw [Admission.untilFull, if_pos fits, Admission.total_cons]
  refine forall₂_congr fun next rest => ?_
  rw [List.cons_append, List.cons_eq_cons, ← Nat.add_assoc]
  exact ⟨fun exact_ same => exact_ ⟨rfl, same⟩, fun exact_ same => exact_ same.2⟩

theorem exact_cons_exceeds {used : Nat} {line : Bytes} (lines : List Bytes)
    (exceeds : ¬used + lineCost line ≤ maxTokens.toNat) :
    Exact maxTokens used (line :: lines) ↔ used + lineCost line < 2 ^ 32 := by
  unfold Exact
  rw [Admission.untilFull, if_neg exceeds]
  exact ⟨fun exact_ => exact_ line lines rfl, fun exact_ next rest same => by
    obtain ⟨rfl, -⟩ := List.cons_eq_cons.mp same
    exact exact_⟩

/-- The sums stay exact as long as the lines up to the first that does not fit add up in 32 bits,
and then the text is made of the lines that fit. -/
theorem contextFrom_spec (capped : maxTokens ≠ 0) : ∀ (entries : List Entry) (count : Nat)
    (tokens : UInt32) (taken : List Bytes), tokens ≤ maxTokens → (∀ line ∈ taken, line ≠ []) →
      ((∀ sum ∈ contextSums maxEntries maxTokens maxChars entries count tokens, sum < 2 ^ 32) ↔
        Exact maxTokens tokens.toNat (considered maxEntries count maxChars entries)) ∧
      (Exact maxTokens tokens.toNat (considered maxEntries count maxChars entries) →
        contextFrom maxEntries maxTokens maxChars entries count tokens
            ([0x0a].intercalate taken) =
          [0x0a].intercalate (taken ++ Admission.untilFull lineCost maxTokens.toNat tokens.toNat
            (considered maxEntries count maxChars entries))) := by
  intro entries
  induction entries with
  | nil =>
      intro count tokens taken within some_
      have none_ : considered maxEntries count maxChars [] = [] := by
        unfold considered
        simp
      rw [none_]
      refine ⟨⟨fun _ => exact_nil _, fun _ sum never => (nomatch never)⟩, fun _ => ?_⟩
      show [0x0a].intercalate taken = [0x0a].intercalate (taken ++ [])
      rw [List.append_nil]
  | cons e rest inductionHypothesis =>
      intro count tokens taken within some_
      unfold contextSums contextFrom
      by_cases full : maxEntries ≠ 0 ∧ maxEntries ≤ count
      · rw [if_pos full, if_pos full, considered_full full]
        refine ⟨⟨fun _ => exact_nil _, fun _ sum never => (nomatch never)⟩, fun _ => ?_⟩
        show [0x0a].intercalate taken = [0x0a].intercalate (taken ++ [])
        rw [List.append_nil]
      · rw [if_neg full, if_neg full, considered_cons full]
        have inked := toEnvText_ne_nil e maxChars
        dsimp only
        rw [if_neg inked, if_neg inked]
        generalize toEnvText e maxChars = line at inked ⊢
        have nonzero : (maxTokens ≠ 0 ∧ maxTokens < tokens + UInt32.ofNat (estimateTokens line)) ↔
            maxTokens.toNat < (tokens.toNat + lineCost line) % 2 ^ 32 := by
          rw [UInt32.lt_iff_toNat_lt, UInt32.toNat_add]
          exact ⟨fun both => both.2, fun less => ⟨capped, less⟩⟩
        by_cases fits : tokens.toNat + lineCost line ≤ maxTokens.toNat
        · -- the line is taken, and the sum is exact
          have small : tokens.toNat + lineCost line < 2 ^ 32 :=
            Nat.lt_of_le_of_lt fits maxTokens.toNat_lt
          have sum : (tokens + UInt32.ofNat (estimateTokens line)).toNat =
              tokens.toNat + lineCost line := by
            rw [UInt32.toNat_add]
            exact Nat.mod_eq_of_lt small
          have goesOn : ¬(maxTokens ≠ 0 ∧
              maxTokens < tokens + UInt32.ofNat (estimateTokens line)) := by
            rw [nonzero, Nat.mod_eq_of_lt small]
            exact Nat.not_lt.mpr fits
          have more : ∀ l ∈ taken ++ [line], l ≠ [] := by
            intro l member
            rcases List.mem_append.mp member with old | last
            · exact some_ l old
            · exact List.mem_singleton.mp last ▸ inked
          obtain ⟨sums, text⟩ := inductionHypothesis (count + 1)
            (tokens + UInt32.ofNat (estimateTokens line)) (taken ++ [line])
            (UInt32.le_iff_toNat_le.mpr (sum ▸ fits)) more
          rw [sum] at sums text
          rw [if_neg goesOn, if_neg goesOn, exact_cons_fits _ fits, List.forall_mem_cons, sums,
            Admission.untilFull, if_pos fits, ← intercalate_concat line some_]
          refine ⟨⟨fun both => both.2, fun exact_ => ⟨small, exact_⟩⟩, fun exact_ => ?_⟩
          rw [text exact_, List.append_assoc]
          rfl
        · rw [exact_cons_exceeds _ fits, Admission.untilFull, if_neg fits, List.append_nil]
          by_cases small : tokens.toNat + lineCost line < 2 ^ 32
          · have stops : maxTokens ≠ 0 ∧
                maxTokens < tokens + UInt32.ofNat (estimateTokens line) := by
              rw [nonzero, Nat.mod_eq_of_lt small]
              exact Nat.not_le.mp fits
            rw [if_pos stops, if_pos stops]
            exact ⟨⟨fun _ => small, fun _ sum member => List.mem_singleton.mp member ▸ small⟩,
              fun _ => rfl⟩
          · -- the sum wraps around, and whatever comes of it was not exact
            refine ⟨⟨fun sums => sums _ ?_, fun exact_ => absurd exact_ small⟩,
              fun exact_ => absurd exact_ small⟩
            split
            · exact List.mem_singleton_self _
            · exact List.mem_cons_self

end Loop

/-! ## The budget of the text -/

/-- The most that a line adds to the estimate of a longer text, in twentieths of a token: its bytes
and a newline at the rate of code, with its ideographs at their own rate, or its words at the rate
of prose. -/
def dearest (line : Bytes) : Nat :=
  max (22 * (counts line).cjk + 5 * (line.length + 1 - 3 * (counts line).cjk))
    (26 * (counts line).words)

theorem dearest_sum (lines : List Bytes) :
    22 * total (·.cjk) lines +
        5 * ((lines.map List.length).sum + lines.length - 3 * total (·.cjk) lines) ≤
      (lines.map dearest).sum ∧
    26 * total (·.words) lines ≤ (lines.map dearest).sum := by
  induction lines with
  | nil => exact ⟨Nat.le_refl _, Nat.le_refl _⟩
  | cons line rest inductionHypothesis =>
      obtain ⟨code, prose⟩ := inductionHypothesis
      unfold total at code prose ⊢
      simp only [List.map_cons, List.sum_cons, List.length_cons] at code prose ⊢
      have code' : 22 * (counts line).cjk + 5 * (line.length + 1 - 3 * (counts line).cjk) ≤
          dearest line := Nat.le_max_left _ _
      have prose' : 26 * (counts line).words ≤ dearest line := Nat.le_max_right _ _
      omega

/-- Whatever the regime of the joined lines, they cost no more than at the dearest rates. -/
theorem joinedPrice_le_of_dearest {lines : List Bytes} {budget : Nat} (some_ : 1 ≤ budget)
    (covered : (lines.map dearest).sum ≤ 20 * budget) : joinedPrice lines ≤ budget := by
  obtain ⟨code, prose⟩ := dearest_sum lines
  unfold joinedPrice
  split
  · exact Nat.zero_le _
  · next inked =>
      have length : 0 < lines.length := List.length_pos_of_ne_nil inked
      generalize (lines.map dearest).sum = dear at covered code prose
      unfold price
      split
      · omega
      · split
        · omega
        · split
          · exact Nat.zero_le _
          · split <;> omega

/-- The estimates of the lines that the cap on their number lets through leave the sums within 32
bits, and where several lines from the first on are within the budget by their estimates, they are
so at the dearest rates. -/
structure Covered (maxEntries : Nat) (maxTokens maxChars : UInt32) (entries : List Entry) :
    Prop where
  small : ∀ line ∈ considered maxEntries 0 maxChars entries,
    estimateTokens line + maxTokens.toNat < 2 ^ 32
  dear : ∀ lines, lines <+: considered maxEntries 0 maxChars entries → 2 ≤ lines.length →
    (lines.map estimateTokens).sum ≤ maxTokens.toNat →
      (lines.map dearest).sum ≤ 20 * maxTokens.toNat

/-- An estimate that leaves room in 32 bits is not cut. -/
theorem lineCost_of_small {line : Bytes} {maxTokens : UInt32}
    (small : estimateTokens line + maxTokens.toNat < 2 ^ 32) :
    lineCost line = estimateTokens line := by
  unfold lineCost
  rw [UInt32.toNat_ofNat']
  exact Nat.mod_eq_of_lt (by omega)

theorem Covered.exact_ {maxEntries : Nat} {maxTokens maxChars : UInt32} {entries : List Entry}
    (covered : Covered maxEntries maxTokens maxChars entries) :
    Exact maxTokens 0 (considered maxEntries 0 maxChars entries) := by
  intro line rest split
  have member : line ∈ considered maxEntries 0 maxChars entries := by
    rw [split]
    simp
  have small := covered.small line member
  have within := @Admission.untilFull_le _ lineCost _ 0 (Nat.zero_le maxTokens.toNat)
    (considered maxEntries 0 maxChars entries)
  rw [lineCost_of_small small]
  omega

/-- **The budget of a context's entries is kept** where it covers the lines at the dearest
rates. -/
theorem withinBudget_of_dearest {maxEntries : Nat} {maxTokens : UInt32} (capped : maxTokens ≠ 0)
    {maxChars : UInt32} {entries : List Entry}
    (covered : Covered maxEntries maxTokens maxChars entries) :
    WithinBudget maxEntries maxTokens maxChars entries := by
  obtain ⟨sums, text⟩ := @contextFrom_spec maxEntries maxTokens maxChars capped entries 0 0 []
    (UInt32.le_iff_toNat_le.mpr (Nat.zero_le _)) (fun line never => absurd never List.not_mem_nil)
  have made : entriesToContext maxEntries maxTokens maxChars entries =
      [0x0a].intercalate (Admission.untilFull lineCost maxTokens.toNat 0
        (considered maxEntries 0 maxChars entries)) := text covered.exact_
  have within := @Admission.untilFull_le _ lineCost _ 0 (Nat.zero_le maxTokens.toNat)
    (considered maxEntries 0 maxChars entries)
  have taken : Admission.untilFull lineCost maxTokens.toNat 0
      (considered maxEntries 0 maxChars entries) <+: considered maxEntries 0 maxChars entries :=
    Admission.untilFull_prefix _ _
  generalize Admission.untilFull lineCost maxTokens.toNat 0
    (considered maxEntries 0 maxChars entries) = lines at made within taken
  have inked : ∀ line ∈ lines, line ≠ [] := by
    intro line member
    obtain ⟨e, -, rfl⟩ := List.mem_map.mp (taken.subset member)
    exact toEnvText_ne_nil e maxChars
  have estimates : (lines.map estimateTokens).sum ≤ maxTokens.toNat := by
    have same : lines.map estimateTokens = lines.map lineCost :=
      List.map_congr_left fun line member =>
        (lineCost_of_small (covered.small line (taken.subset member))).symm
    rw [same]
    exact (Nat.zero_add _).symm.trans_le within
  refine ⟨?_, ⟨lines, ?_, fun limited => ?_, made⟩, sums.mpr covered.exact_⟩
  · rw [made]
    by_cases several : 2 ≤ lines.length
    · rw [estimateTokens_intercalate inked]
      refine joinedPrice_le_of_dearest ?_ (covered.dear lines taken several estimates)
      exact Nat.pos_of_ne_zero fun zero => capped (UInt32.toNat_inj.mp zero)
    · -- a line alone has its own estimate
      rcases lines with _ | ⟨line, _ | ⟨next, rest⟩⟩
      · exact Nat.zero_le _
      · have alone : [0x0a].intercalate [line] = line := by simp [List.intercalate]
        rw [alone]
        simpa using estimates
      · exact absurd (by simp) several
  · refine taken.sublist.trans ?_
    unfold considered
    split
    · exact List.Sublist.refl _
    · exact (List.take_sublist _ _).map _
  · refine Nat.le_trans taken.length_le ?_
    unfold considered
    rw [if_neg limited, List.length_map, List.length_take]
    exact Nat.min_le_left _ _

/-- A fact whose value is one long word. -/
def wordyFact (key : String) (letters : Nat) : Entry :=
  ⟨[], .fact, [], str key, List.replicate letters (ch 'a'), [], 0, 0, []⟩

/-- Two facts are within a budget of eight tokens, and a third one would not be. -/
theorem withinBudget_of_dearest_short :
    WithinBudget 6 8 0 [wordyFact "k" 5, wordyFact "l" 5, wordyFact "m" 5] ∧
      (Admission.untilFull lineCost 8 0
        (considered 6 0 0 [wordyFact "k" 5, wordyFact "l" 5, wordyFact "m" 5])).length = 2 := by
  refine ⟨withinBudget_of_dearest (by decide) ⟨by decide +kernel, ?_⟩, by decide +kernel⟩
  have all : ∀ lines ∈ (considered 6 0 0 [wordyFact "k" 5, wordyFact "l" 5, wordyFact "m" 5]).inits,
      2 ≤ lines.length → (lines.map estimateTokens).sum ≤ 8 →
        (lines.map dearest).sum ≤ 160 := by decide +kernel
  exact fun lines starts => all lines ((List.mem_inits _ _).mpr starts)

/-- Two facts of 40 letters: each line is three words of prose, both together are code. -/
theorem wordyFacts_exceed :
    (considered 6 0 512 [wordyFact "k" 40, wordyFact "l" 40]).map lineCost = [3, 3] ∧
      estimateTokens (entriesToContext 6 10 512 [wordyFact "k" 40, wordyFact "l" 40]) = 25 ∧
      ¬WithinBudget 6 10 512 [wordyFact "k" 40, wordyFact "l" 40] := by
  have price :
      estimateTokens (entriesToContext 6 10 512 [wordyFact "k" 40, wordyFact "l" 40]) = 25 := by
    decide +kernel
  refine ⟨by decide +kernel, price, fun within => ?_⟩
  have affordable := within.affordable
  rw [price] at affordable
  exact absurd affordable (by decide)

end Opencodepp.Memory
