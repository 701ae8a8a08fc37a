import Mathlib.Algebra.BigOperators.Group.List.Basic
import Opencodepp.Msg.Message

/-!
# Token estimates

One pass classifies a text as ideographic, code-like or prose and estimates its
tokens by the constants of that regime.  The estimate of a message adds its parts
up and remembers the estimates of short strings by their hash, so two strings with
one hash share an estimate inside a message.
-/

set_option autoImplicit false

namespace Opencodepp.Msg

open Opencodepp.Library

/-- The ASCII punctuation that marks code. -/
def codeSymbols : Bytes := str "\x7b\x7d<>[]()|&=!+*/%^~;#@:" ++ [0x60, 0x22]

def isCodeSymbol (c : UInt8) : Bool := codeSymbols.contains c

/-- What the classifying pass counts. -/
structure TextCounts where
  words : Nat
  newlines : Nat
  symbols : Nat
  cjk : Nat
  inWord : Bool
  deriving Repr, DecidableEq

namespace TextCounts

def zero : TextCounts := ⟨0, 0, 0, 0, false⟩

/-- Enter a word unless already inside one. -/
def enterWord (k : TextCounts) : TextCounts :=
  if k.inWord then k else { k with words := k.words + 1, inWord := true }

/-- Count one byte. -/
def byte (k : TextCounts) (u : UInt8) : TextCounts :=
  if 0x80 ≤ u then
    enterWord (if u &&& 0xE0 = 0xE0 then { k with cjk := k.cjk + 1 } else k)
  else if u = 0x20 || u = 0x09 || u = 0x0d || u = 0x0a then
    { k with newlines := if u = 0x0a then k.newlines + 1 else k.newlines, inWord := false }
  else
    -- no letter or digit is a code symbol
    enterWord (if isCodeSymbol u then { k with symbols := k.symbols + 1 } else k)

end TextCounts

/-- The estimated number of tokens of a text. -/
def estimateTokens (s : Bytes) : Nat :=
  let n := s.length
  if n = 0 then 0
  else
    let k := s.foldl TextCounts.byte TextCounts.zero
    if 4 ≤ k.cjk && k.words ≤ k.cjk * 2 then k.cjk * 11 / 10 + (n - k.cjk * 3) / 4
    else if (2 ≤ k.newlines && 3 ≤ k.symbols) || (1 ≤ k.newlines && k.words / 2 < k.symbols) ||
        n / 6 < k.symbols then
      max 1 (n / 4)
    else if k.words = 0 then 0
    else if k.words * 13 / 10 = 0 then 1 else k.words * 13 / 10

/-- The hash that keys remembered estimates. -/
def fnv1a64 (s : Bytes) : UInt64 :=
  s.foldl (fun h c => (h ^^^ c.toUInt64) * 1099511628211) 1469598103934665603

/-- The remembered estimates, oldest first; at most eight are live. -/
abbrev TokenCache := List (UInt64 × Nat)

/-- The estimate of a string through the cache. -/
def TokenCache.get (cache : TokenCache) (s : Bytes) : Nat × TokenCache :=
  if 2048 ≤ s.length then (estimateTokens s, cache)
  else
    match cache.lookup (fnv1a64 s) with
    | some v => (v, cache)
    | none =>
        let v := estimateTokens s
        let kept := if cache.length < 8 then cache else cache.drop 1
        (v, kept ++ [(fnv1a64 s, v)])

/-- The estimate of one part. -/
def estimatePartTokens (cache : TokenCache) : Part → Nat × TokenCache
  | .text content => cache.get content
  | .reasoning content => cache.get content
  | .imageUrl url => (8 + url.length / 4, cache)
  | .binary mime data => (4 + mime.length / 4 + data.length / 4, cache)
  | .toolCall call =>
      (8 + call.id.length / 2 + call.name.length / 4 + estimateTokens call.inputJson, cache)
  | .toolResult result =>
      let (v, cache) := cache.get result.content
      (2 + v, cache)
  | .finish _ => (1, cache)

/-- The estimate of a message: a frame and its parts. -/
def estimateMessageTokens (m : Message) : Nat :=
  (m.parts.foldl (fun (acc : Nat × TokenCache) part =>
    let (v, cache) := estimatePartTokens acc.2 part
    (acc.1 + v, cache)) (4, [])).1

/-!
## The counts of joined texts

An estimate depends on the length of a text and on four counts.  The counts of lines that are
joined by newlines are the sums of the counts of the lines, but for the newlines between them
(`counts_intercalate`), so that the estimate of the joined text can be told from its lines
(`estimateTokens_intercalate`).
-/

/-- What is counted of a text. -/
def counts (s : Bytes) : TextCounts := s.foldl TextCounts.byte TextCounts.zero

/-- The estimate of a text of so many bytes, words, newlines, code symbols and ideographs. -/
def price (n words newlines symbols cjk : Nat) : Nat :=
  if 4 ≤ cjk && words ≤ cjk * 2 then cjk * 11 / 10 + (n - cjk * 3) / 4
  else if (2 ≤ newlines && 3 ≤ symbols) || (1 ≤ newlines && words / 2 < symbols) ||
      n / 6 < symbols then
    max 1 (n / 4)
  else if words = 0 then 0
  else if words * 13 / 10 = 0 then 1 else words * 13 / 10

theorem estimateTokens_eq {s : Bytes} (some_ : s ≠ []) :
    estimateTokens s = price s.length (counts s).words (counts s).newlines (counts s).symbols
      (counts s).cjk :=
  if_neg (mt List.length_eq_zero_iff.mp some_)

namespace TextCounts

/-- Counts behind others. -/
def behind (d k : TextCounts) : TextCounts :=
  ⟨d.words + k.words, d.newlines + k.newlines, d.symbols + k.symbols, d.cjk + k.cjk, k.inWord⟩

theorem enterWord_behind (d k : TextCounts) : (behind d k).enterWord = behind d k.enterWord := by
  unfold enterWord behind
  dsimp only
  split
  · rfl
  · rfl

theorem byte_behind (d k : TextCounts) (u : UInt8) : (behind d k).byte u = behind d (k.byte u) := by
  unfold byte
  split
  · rw [← enterWord_behind]
    split
    · rfl
    · rfl
  · split
    · unfold behind
      dsimp only
      split
      · rfl
      · rfl
    · rw [← enterWord_behind]
      split
      · rfl
      · rfl

theorem foldl_behind (d : TextCounts) (s : Bytes) : ∀ k : TextCounts,
    s.foldl byte (behind d k) = behind d (s.foldl byte k) := by
  induction s with
  | nil => exact fun k => rfl
  | cons u rest inductionHypothesis =>
      intro k
      rw [List.foldl_cons, List.foldl_cons, byte_behind, inductionHypothesis]

end TextCounts

/-- Two lines are counted one by one, and the newline between them. -/
theorem counts_line (a b : Bytes) :
    (counts (a ++ 0x0a :: b)).words = (counts a).words + (counts b).words ∧
      (counts (a ++ 0x0a :: b)).newlines = (counts a).newlines + 1 + (counts b).newlines ∧
      (counts (a ++ 0x0a :: b)).symbols = (counts a).symbols + (counts b).symbols ∧
      (counts (a ++ 0x0a :: b)).cjk = (counts a).cjk + (counts b).cjk := by
  have newline : (counts a).byte 0x0a = TextCounts.behind
      { counts a with newlines := (counts a).newlines + 1 } TextCounts.zero := rfl
  have both : counts (a ++ 0x0a :: b) = TextCounts.behind
      { counts a with newlines := (counts a).newlines + 1 } (counts b) := by
    show (a ++ 0x0a :: b).foldl TextCounts.byte TextCounts.zero = _
    rw [List.foldl_append, List.foldl_cons]
    show b.foldl TextCounts.byte ((counts a).byte 0x0a) = _
    rw [newline, TextCounts.foldl_behind]
    rfl
  rw [both]
  exact ⟨rfl, rfl, rfl, rfl⟩

/-- A count over all lines. -/
def total (count : TextCounts → Nat) (lines : List Bytes) : Nat :=
  (lines.map fun line => count (counts line)).sum

theorem intercalate_cons_cons (a b : Bytes) (rest : List Bytes) :
    [0x0a].intercalate (a :: b :: rest) = a ++ 0x0a :: [0x0a].intercalate (b :: rest) := by
  simp [List.intercalate]

/-- The counts and the length of joined lines. -/
theorem counts_intercalate : ∀ (rest : List Bytes) (line : Bytes),
    (counts ([0x0a].intercalate (line :: rest))).words = total (·.words) (line :: rest) ∧
      (counts ([0x0a].intercalate (line :: rest))).newlines =
        total (·.newlines) (line :: rest) + rest.length ∧
      (counts ([0x0a].intercalate (line :: rest))).symbols = total (·.symbols) (line :: rest) ∧
      (counts ([0x0a].intercalate (line :: rest))).cjk = total (·.cjk) (line :: rest) ∧
      ([0x0a].intercalate (line :: rest)).length =
        ((line :: rest).map List.length).sum + rest.length := by
  intro rest
  induction rest with
  | nil =>
      intro line
      have alone : [0x0a].intercalate [line] = line := by simp [List.intercalate]
      rw [alone]
      simp [total]
  | cons next rest inductionHypothesis =>
      intro line
      obtain ⟨words, newlines, symbols, cjk, length⟩ := inductionHypothesis next
      obtain ⟨words', newlines', symbols', cjk'⟩ :=
        counts_line line ([0x0a].intercalate (next :: rest))
      rw [intercalate_cons_cons, words', newlines', symbols', cjk', words, newlines, symbols, cjk]
      refine ⟨rfl, ?_, rfl, rfl, ?_⟩
      · show _ + 1 + (total (·.newlines) (next :: rest) + rest.length) =
          (counts line).newlines + total (·.newlines) (next :: rest) + (rest.length + 1)
        omega
      · rw [List.length_append]
        show line.length + (([0x0a].intercalate (next :: rest)).length + 1) =
          line.length + ((next :: rest).map List.length).sum + (rest.length + 1)
        rw [length]
        omega

/-- The price of lines that are joined, from their counts. -/
def joinedPrice (lines : List Bytes) : Nat :=
  if lines = [] then 0
  else
    price ((lines.map List.length).sum + (lines.length - 1)) (total (·.words) lines)
      (total (·.newlines) lines + (lines.length - 1)) (total (·.symbols) lines)
      (total (·.cjk) lines)

/-- **The estimate of joined lines** is the price of the sums of their counts. -/
theorem estimateTokens_intercalate {lines : List Bytes} (some_ : ∀ line ∈ lines, line ≠ []) :
    estimateTokens ([0x0a].intercalate lines) = joinedPrice lines := by
  cases lines with
  | nil => rfl
  | cons line rest =>
      obtain ⟨words, newlines, symbols, cjk, length⟩ := counts_intercalate rest line
      have first := some_ line List.mem_cons_self
      have whole : [0x0a].intercalate (line :: rest) ≠ [] := by
        intro none_
        rw [none_, List.map_cons, List.sum_cons, List.length_nil] at length
        exact first (List.length_eq_zero_iff.mp (by omega))
      rw [estimateTokens_eq whole, words, newlines, symbols, cjk, length]
      rfl

end Opencodepp.Msg
