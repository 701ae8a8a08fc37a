import Mathlib.Data.List.Basic
import Opencodepp.Net.HttpSplit

/-!
# The chunked coding

A body in chunks is a sequence of size lines, each followed by as many bytes and a line end, up to
a size of zero.  The decoder accepts every such body.  It also accepts others: a size line may be
blank, have spaces around its digits, or overflow, and the two bytes behind the data are passed
unread.  `acceptsOnlyChunked_iff` says that it goes wrong on no other inputs.
-/

set_option autoImplicit false

namespace Opencodepp.Net

open Opencodepp.Core
open Opencodepp.Library
open SseParser (lineFeed stripReturn)

/-! ## The grammar -/

namespace Chunked

/-- The number that hexadecimal digits denote, continued from a value. -/
def hexValue (value : Nat) (digits : Bytes) : Nat :=
  digits.foldl (fun v c => v * 16 + (hexDigit c).getD 0) value

/-- A size line without its line feed: digits of a number that 64 bits hold, then an extension,
then a carriage return, the last two optional. -/
structure SizeLine (line : Bytes) (size : Nat) : Prop where
  shape : ∃ digits extension ending, line = digits ++ extension ++ ending ∧ digits ≠ [] ∧
    (∀ c ∈ digits, (hexDigit c).isSome) ∧ (extension = [] ∨ extension.head? = some 0x3b) ∧
    lineFeed ∉ extension ∧ (ending = [] ∨ ending = [0x0d]) ∧ hexValue 0 digits = size
  held : size < wordValues

/-- The chunked coding of a body, up to the line of the last chunk. -/
inductive Coding : Bytes → Bytes → Prop
  | last {line : Bytes} (size : SizeLine line 0) : Coding (line ++ [lineFeed]) []
  | chunk {line data coded body : Bytes} (size : SizeLine line data.length) (some_ : data ≠ [])
      (rest : Coding coded body) :
      Coding (line ++ lineFeed :: (data ++ crlf ++ coded)) (data ++ body)

/-! ## Size lines -/

theorem hexValue_mod (digits : Bytes) : ∀ value : Nat,
    hexValue (value % wordValues) digits % wordValues = hexValue value digits % wordValues := by
  induction digits with
  | nil => exact fun value => Nat.mod_mod _ _
  | cons c rest inductionHypothesis =>
      intro value
      have step (v : Nat) : hexValue v (c :: rest) = hexValue (v * 16 + (hexDigit c).getD 0) rest :=
        rfl
      rw [step, step, ← inductionHypothesis, ← inductionHypothesis (value * 16 + _)]
      congr 2
      rw [Nat.add_mod, Nat.mod_mul_mod, ← Nat.add_mod]

/-- What the loop over the digits computes. -/
theorem foldlM_hexDigit {n : Nat} : ∀ (digits : Bytes) {value : Nat}, value < wordValues →
    (digits.foldlM (fun size c => (hexDigit c).map fun d => (size * 16 + d) % wordValues) value =
        some n ↔
      (∀ c ∈ digits, (hexDigit c).isSome) ∧ hexValue value digits % wordValues = n) := by
  intro digits
  induction digits with
  | nil =>
      intro value small
      simp [hexValue, Nat.mod_eq_of_lt small]
  | cons c rest inductionHypothesis =>
      intro value small
      cases digit : hexDigit c with
      | none => simp [digit]
      | some d =>
          have small : (value * 16 + d) % wordValues < wordValues :=
            Nat.mod_lt _ (by decide)
          have next : hexValue value (c :: rest) = hexValue (value * 16 + d) rest := by
            simp [hexValue, digit]
          simp only [List.foldlM_cons, digit, Option.map_some, Option.bind_eq_bind,
            Option.bind_some, inductionHypothesis small, hexValue_mod, next, List.forall_mem_cons,
            Option.isSome_some, true_and]

/-- What a size line has before its extension. -/
def sizeText (line : Bytes) : Bytes := (stripReturn line).takeWhile (· ≠ 0x3b)

/-- A size line that the decoder reads although it is none: without digits, with blanks around
them, or of a number that 64 bits do not hold. -/
def Sloppy (line : Bytes) : Prop :=
  trim (sizeText line) = [] ∨ trim (sizeText line) ≠ sizeText line ∨
    wordValues ≤ hexValue 0 (sizeText line)

theorem chunkSizeOf_eq_some {line : Bytes} {n : Nat} :
    chunkSizeOf line = some n ↔ (∀ c ∈ trim (sizeText line), (hexDigit c).isSome) ∧
      hexValue 0 (trim (sizeText line)) % wordValues = n :=
  foldlM_hexDigit _ (by decide)

theorem chunkSizeOf_lt {line : Bytes} {n : Nat} (size : chunkSizeOf line = some n) :
    n < wordValues := by
  rw [← (chunkSizeOf_eq_some.mp size).2]
  exact Nat.mod_lt _ (by decide)

/-- A hexadecimal digit is no blank, no semicolon and no part of a line end. -/
theorem hexDigit_ne {c : UInt8} (digit : (hexDigit c).isSome) :
    isTrimmed c = false ∧ c ≠ 0x3b ∧ c ≠ 0x0d ∧ c ≠ lineFeed := by
  have other {b : UInt8} (none_ : hexDigit b = none) : c ≠ b := by
    rintro rfl
    rw [none_] at digit
    cases digit
  refine ⟨?_, other (by decide), other (by decide), other (by decide)⟩
  unfold isTrimmed
  simp [other (b := 0x20) (by decide), other (b := 0x09) (by decide)]

theorem trim_of_digits {digits : Bytes} (all : ∀ c ∈ digits, (hexDigit c).isSome) :
    trim digits = digits := by
  have kept {s : Bytes} (none_ : ∀ c ∈ s, isTrimmed c = false) : s.dropWhile isTrimmed = s := by
    cases s with
    | nil => rfl
    | cons c rest => simp [none_ c List.mem_cons_self]
  have blanks : ∀ c ∈ digits, isTrimmed c = false := fun c member => (hexDigit_ne (all c member)).1
  unfold trim
  rw [kept blanks, kept (by simpa using blanks), List.reverse_reverse]

/-- Digits and an extension stay so when a carriage return is taken from their end. -/
theorem stripReturn_of_shape {digits extension : Bytes}
    (all : ∀ c ∈ digits, (hexDigit c).isSome)
    (extended : extension = [] ∨ extension.head? = some 0x3b) :
    ∃ left, stripReturn (digits ++ extension) = digits ++ left ∧
      (left = [] ∨ left.head? = some 0x3b) := by
  unfold stripReturn
  split
  · next returned =>
      cases extension with
      | nil =>
          rw [List.append_nil] at returned
          have member := List.mem_of_getLast? returned
          exact absurd rfl (hexDigit_ne (all _ member)).2.2.1
      | cons c rest =>
          obtain rfl : c = 0x3b := by simpa using extended
          cases rest with
          | nil => simp at returned
          | cons d rest =>
              refine ⟨0x3b :: (d :: rest).dropLast, ?_, .inr rfl⟩
              rw [List.dropLast_append_of_ne_nil (by simp)]
              rfl
  · exact ⟨extension, rfl, extended⟩

theorem sizeText_of_shape {digits extension ending : Bytes}
    (all : ∀ c ∈ digits, (hexDigit c).isSome) (extended : extension = [] ∨ extension.head? = some 0x3b)
    (ended : ending = [] ∨ ending = [0x0d]) :
    sizeText (digits ++ extension ++ ending) = digits := by
  have stripped : ∃ left, stripReturn (digits ++ extension ++ ending) = digits ++ left ∧
      (left = [] ∨ left.head? = some 0x3b) := by
    rcases ended with rfl | rfl
    · rw [List.append_nil]
      exact stripReturn_of_shape all extended
    · exact ⟨extension, by simp [stripReturn], extended⟩
  obtain ⟨left, same, extended⟩ := stripped
  have passes : ∀ c ∈ digits, decide (c ≠ 0x3b) = true := fun c member => by
    simpa using (hexDigit_ne (all c member)).2.1
  unfold sizeText
  rw [same, List.takeWhile_append_of_pos passes]
  rcases extended with rfl | starts
  · simp
  · cases left with
    | nil => cases starts
    | cons c rest =>
        obtain rfl : c = 0x3b := by simpa using starts
        simp

theorem SizeLine.chunkSizeOf {line : Bytes} {n : Nat} (size : SizeLine line n) :
    chunkSizeOf line = some n := by
  obtain ⟨⟨digits, extension, ending, rfl, -, all, extended, -, ended, value⟩, held⟩ := size
  rw [chunkSizeOf_eq_some, sizeText_of_shape all extended ended, trim_of_digits all, value]
  exact ⟨all, Nat.mod_eq_of_lt held⟩

theorem SizeLine.notSloppy {line : Bytes} {n : Nat} (size : SizeLine line n) : ¬ Sloppy line := by
  obtain ⟨⟨digits, extension, ending, rfl, some_, all, extended, -, ended, value⟩, held⟩ := size
  rw [Sloppy, sizeText_of_shape all extended ended, trim_of_digits all, value]
  exact not_or.mpr ⟨some_, not_or.mpr ⟨fun different => different rfl, Nat.not_le.mpr held⟩⟩

theorem SizeLine.lineFeed_notMem {line : Bytes} {n : Nat} (size : SizeLine line n) :
    lineFeed ∉ line := by
  obtain ⟨⟨digits, extension, ending, rfl, -, all, -, plain, ended, -⟩, -⟩ := size
  simp only [List.mem_append, not_or]
  refine ⟨⟨fun member => (hexDigit_ne (all _ member)).2.2.2 rfl, plain⟩, ?_⟩
  rcases ended with rfl | rfl
  · simp
  · decide

/-- What the decoder reads as a size is one, unless it is sloppy. -/
theorem sizeLine_of_not_sloppy {line : Bytes} {n : Nat} (plain : lineFeed ∉ line)
    (size : Net.chunkSizeOf line = some n) (tidy : ¬ Sloppy line) : SizeLine line n := by
  obtain ⟨some_, trimmed, held⟩ : trim (sizeText line) ≠ [] ∧
      trim (sizeText line) = sizeText line ∧ hexValue 0 (sizeText line) < wordValues := by
    simpa [Sloppy, not_or] using tidy
  have small := chunkSizeOf_lt size
  rw [chunkSizeOf_eq_some, trimmed, Nat.mod_eq_of_lt held] at size
  rw [trimmed] at some_
  have stripped : ∃ ending, line = stripReturn line ++ ending ∧ (ending = [] ∨ ending = [0x0d]) := by
    unfold stripReturn
    split
    · next returned =>
        exact ⟨[0x0d], (List.dropLast_append_getLast? _ returned).symm, .inr rfl⟩
    · exact ⟨[], by simp, .inl rfl⟩
  obtain ⟨ending, whole, ended⟩ := stripped
  refine ⟨⟨sizeText line, (stripReturn line).dropWhile (· ≠ 0x3b), ending, ?_, some_, size.1, ?_, ?_,
    ended, size.2⟩, small⟩
  · rw [sizeText, List.takeWhile_append_dropWhile]
    exact whole
  · cases left : (stripReturn line).dropWhile (· ≠ 0x3b) with
    | nil => exact .inl rfl
    | cons c rest =>
        have stops := List.head?_dropWhile_not (· ≠ 0x3b) (stripReturn line)
        rw [left] at stops
        exact .inr (by simpa using stops)
  · intro member
    refine plain ?_
    rw [whole]
    exact List.mem_append_left _ ((List.dropWhile_sublist _).mem member)

/-! ## The walk of the decoder -/

/-- The decoder comes to a size line: chunks that it takes for such lie behind it, of this body,
and these bytes before it. -/
inductive Reaches (maxBody : Nat) (stream : Bytes) : Bytes → Bytes → Prop
  | start : Reaches maxBody stream [] stream
  | chunk {body line data ending rest : Bytes}
      (before : Reaches maxBody stream body (line ++ lineFeed :: (data ++ ending ++ rest)))
      (plain : lineFeed ∉ line) (size : chunkSizeOf line = some data.length) (some_ : data ≠ [])
      (skipped : ending.length = 2) (held : data.length + 2 < wordValues)
      (fits : body.length + data.length ≤ maxBody) :
      Reaches maxBody stream (body ++ data) rest

/-- The decoder comes to a size line of this size. -/
structure ReadsSize (maxBody : Nat) (stream body line rest : Bytes) (size : Nat) : Prop where
  reached : Reaches maxBody stream body (line ++ lineFeed :: rest)
  plain : lineFeed ∉ line
  isSize : chunkSizeOf line = some size

/-- The decoder comes to a size of zero. -/
def Ends (maxBody : Nat) (stream : Bytes) : Prop :=
  ∃ body line rest, ReadsSize maxBody stream body line rest 0

/-- The decoder comes to a size that wraps around with the line end, and a byte follows. -/
def Overlong (maxBody : Nat) (stream : Bytes) : Prop :=
  ∃ body line rest size, ReadsSize maxBody stream body line rest size ∧
    wordValues ≤ size + 2 ∧ rest ≠ []

/-- The decoder comes to a sloppy size line, or to data that no line end follows. -/
def Flawed (maxBody : Nat) (stream : Bytes) : Prop :=
  ∃ body line rest size, ReadsSize maxBody stream body line rest size ∧
    (Sloppy line ∨ size ≠ 0 ∧ ∃ data ending after, rest = data ++ ending ++ after ∧
      data.length = size ∧ ending.length = 2 ∧ ending ≠ crlf)

/-- Where nothing was wrong, what lies behind the decoder is in the grammar. -/
theorem Reaches.coding {maxBody : Nat} {stream body rest : Bytes} (clean : ¬ Flawed maxBody stream)
    (reaches : Reaches maxBody stream body rest) :
    ∃ front, stream = front ++ rest ∧ ∀ {coded last}, Coding coded last →
      Coding (front ++ coded) (body ++ last) := by
  induction reaches with
  | start => exact ⟨[], rfl, fun coding => coding⟩
  | @chunk body line data ending rest before plain size some_ skipped held fits inductionHypothesis =>
      obtain ⟨front, whole, extends_⟩ := inductionHypothesis
      have reads : ReadsSize maxBody stream body line (data ++ ending ++ rest) data.length :=
        ⟨before, plain, size⟩
      have tidy : ¬ Sloppy line := fun sloppy => clean ⟨_, _, _, _, reads, .inl sloppy⟩
      have lineEnd : ending = crlf := by
        by_contra other
        refine clean ⟨_, _, _, _, reads, .inr ⟨?_, data, ending, rest, rfl, rfl, skipped, other⟩⟩
        exact fun empty => some_ (List.length_eq_zero_iff.mp empty)
      refine ⟨front ++ (line ++ lineFeed :: (data ++ ending)), by simp [whole], ?_⟩
      intro coded last coding
      have more := extends_ (.chunk (sizeLine_of_not_sloppy plain size tidy) some_ coding)
      simpa [lineEnd] using more

/-- Lines end at their first line feed. -/
theorem line_unique {line line' rest rest' : Bytes} (plain : lineFeed ∉ line)
    (plain' : lineFeed ∉ line') (same : line ++ lineFeed :: rest = line' ++ lineFeed :: rest') :
    line = line' ∧ rest = rest' := by
  have cut : cutAt lineFeed (line ++ lineFeed :: rest) = some (line, rest) :=
    HttpParser.cutAt_eq_some.mpr ⟨rfl, plain⟩
  have cut' : cutAt lineFeed (line' ++ lineFeed :: rest') = some (line', rest') :=
    HttpParser.cutAt_eq_some.mpr ⟨rfl, plain'⟩
  rw [same, cut'] at cut
  exact Prod.mk.inj (Option.some.inj cut.symm)

/-- The first line of a coding and what follows it. -/
theorem Coding.first {coded body after line rest : Bytes} (coding : Coding coded body)
    (plain : lineFeed ∉ line) (same : line ++ lineFeed :: rest = coded ++ after) :
    SizeLine line 0 ∨ ∃ data later last, SizeLine line data.length ∧ data ≠ [] ∧
      Coding later last ∧ rest = data ++ (crlf ++ (later ++ after)) := by
  cases coding with
  | @last line' size =>
      rw [List.append_assoc] at same
      obtain ⟨rfl, -⟩ := line_unique plain size.lineFeed_notMem same
      exact .inl size
  | @chunk line' data later last size some_ coding =>
      rw [List.append_assoc] at same
      obtain ⟨rfl, isRest⟩ := line_unique plain size.lineFeed_notMem same
      exact .inr ⟨data, later, last, size, some_, coding, by simp [isRest]⟩

/-- The data and the line end of a chunk are told apart from the rest by their lengths. -/
theorem data_unique {data data' ending rest later : Bytes} (sameLength : data.length = data'.length)
    (skipped : ending.length = 2) (same : data ++ ending ++ rest = data' ++ (crlf ++ later)) :
    ending = crlf ∧ rest = later := by
  rw [List.append_assoc] at same
  exact List.append_inj (List.append_inj same sameLength).2 skipped

/-- On a coding the decoder walks from chunk to chunk. -/
theorem Reaches.aligned {maxBody : Nat} {coded whole after body rest : Bytes}
    (coding : Coding coded whole) (reaches : Reaches maxBody (coded ++ after) body rest) :
    ∃ later last, rest = later ++ after ∧ Coding later last := by
  induction reaches with
  | start => exact ⟨coded, whole, rfl, coding⟩
  | @chunk body line data ending rest before plain size some_ skipped held fits inductionHypothesis =>
      obtain ⟨later, last, same, coding⟩ := inductionHypothesis
      obtain zero | ⟨data', next, last, isSize, -, coding, isRest⟩ := coding.first plain same
      · rw [zero.chunkSizeOf] at size
        exact absurd (List.length_eq_zero_iff.mp (Option.some.inj size).symm) some_
      · rw [isSize.chunkSizeOf] at size
        have sameLength := (Option.some.inj size).symm
        exact ⟨next, last, (data_unique sameLength skipped isRest).2, coding⟩

/-- A stream that begins with a coding is without a flaw, as far as the decoder goes. -/
theorem Coding.notFlawed {maxBody : Nat} {coded body after : Bytes} (coding : Coding coded body) :
    ¬ Flawed maxBody (coded ++ after) := by
  rintro ⟨delivered, line, rest, size, reads, flaw⟩
  obtain ⟨later, last, same, coding⟩ := reads.reached.aligned coding
  have isSize := reads.isSize
  obtain zero | ⟨data, next, last, sized, -, -, isRest⟩ := coding.first reads.plain same
  · rw [zero.chunkSizeOf] at isSize
    rcases flaw with sloppy | ⟨nonzero, -⟩
    · exact zero.notSloppy sloppy
    · exact nonzero (Option.some.inj isSize).symm
  · rw [sized.chunkSizeOf] at isSize
    rcases flaw with sloppy | ⟨-, data', ending, behind, cut, length, skipped, other⟩
    · exact sized.notSloppy sloppy
    · have sameLength : data'.length = data.length := by
        rw [length]
        exact (Option.some.inj isSize).symm
      exact other (data_unique sameLength skipped (cut.symm.trans isRest)).1

/-- **What the decoder took for a whole body is one exactly when it met no flaw.** -/
theorem coding_iff_not_flawed {maxBody : Nat} {stream body line rest : Bytes}
    (ended : ReadsSize maxBody stream body line rest 0) :
    (∃ coded after, stream = coded ++ after ∧ Coding coded body) ↔ ¬ Flawed maxBody stream := by
  constructor
  · rintro ⟨coded, after, rfl, coding⟩
    exact coding.notFlawed
  · intro clean
    obtain ⟨front, whole, extends_⟩ := ended.reached.coding clean
    have tidy : ¬ Sloppy line := fun sloppy => clean ⟨_, _, _, _, ended, .inl sloppy⟩
    have last : Coding (line ++ [lineFeed]) [] :=
      .last (sizeLine_of_not_sloppy ended.plain ended.isSize tidy)
    refine ⟨front ++ (line ++ [lineFeed]), rest, by simp [whole], ?_⟩
    simpa using extends_ last

/-! ## The decoder takes the walk -/

open HttpParser (decodeStep withSize withChunk steady_decodeStep)

/-- The decoder is at a size line, with this body. -/
structure AtSize (maxBody : Nat) (p : HttpParser) (body : Bytes) : Prop where
  noSize : p.chunkedSizeSeen = false
  notDone : p.chunkedDone = false
  isBody : p.bodyBuf = body
  got : p.bodyGot = body.length
  limit : p.maxBody = maxBody

/-- The decoder is behind a size line, with this body. -/
structure AfterSize (maxBody : Nat) (p : HttpParser) (body : Bytes) : Prop where
  hasSize : p.chunkedSizeSeen = true
  done : p.chunkedDone = decide (p.chunkSize = 0)
  isBody : p.bodyBuf = body
  got : p.bodyGot = body.length
  limit : p.maxBody = maxBody

/-- Where steps of the decoder lead. -/
inductive Walks (maxBody : Nat) (stream : Bytes) (p : HttpParser) (rest : Bytes) : Prop
  | atSize {body : Bytes} (state : AtSize maxBody p body)
      (reached : Reaches maxBody stream body rest)
  | afterSize {body line : Bytes} (state : AfterSize maxBody p body)
      (reads : ReadsSize maxBody stream body line rest p.chunkSize)

section Walk

variable {maxBody : Nat} {stream body rest : Bytes} {q p : HttpParser}

theorem AtSize.withSize (state : AtSize maxBody p body) (size : Nat) :
    AfterSize maxBody (p.withSize size) body :=
  ⟨rfl, rfl, state.isBody, state.got, state.limit⟩

/-- At a size line the decoder reads it. -/
theorem AtSize.decodeStep {line : Bytes} {size : Nat} (state : AtSize maxBody p body)
    (plain : lineFeed ∉ line) (isSize : chunkSizeOf line = some size) :
    p.decodeStep (line ++ lineFeed :: rest) = .next (p.withSize size) rest :=
  HttpParser.decodeStep_eq_next.mpr ⟨state.notDone, .inl ⟨state.noSize, line, size,
    HttpParser.cutAt_eq_some.mpr ⟨rfl, plain⟩, isSize, rfl⟩⟩

theorem AfterSize.withChunk {data : Bytes} (state : AfterSize maxBody p body)
    (size : p.chunkSize = data.length) (positive : data ≠ []) (more : Bytes) :
    AtSize maxBody (p.withChunk (data ++ more)) (body ++ data) where
  noSize := rfl
  notDone := by
    have nonzero : p.chunkSize ≠ 0 := fun zero =>
      positive (List.length_eq_zero_iff.mp (size.symm.trans zero))
    simp [HttpParser.withChunk, state.done, nonzero]
  isBody := by simp [HttpParser.withChunk, size, state.isBody]
  got := by simp [HttpParser.withChunk, size, state.got]
  limit := state.limit

/-- Bytes cut behind data and a line end. -/
theorem exists_chunk {size : Nat} (enough : size + 2 ≤ rest.length) :
    ∃ data ending, rest = data ++ ending ++ rest.drop (size + 2) ∧ data.length = size ∧
      ending.length = 2 := by
  refine ⟨rest.take size, (rest.drop size).take 2, ?_, ?_, ?_⟩
  · rw [← List.take_add, List.take_append_drop]
  · exact List.length_take_of_le (by omega)
  · rw [List.length_take, List.length_drop]
    omega

theorem walks_step {next : HttpParser} {left : Bytes} (walks : Walks maxBody stream p rest)
    (taken : p.decodeStep rest = .next next left) : Walks maxBody stream next left := by
  obtain ⟨notDone, ⟨noSize, line, size, cut, sized, rfl⟩ |
    ⟨hasSize, held, enough, fits, rfl, rfl⟩⟩ := HttpParser.decodeStep_eq_next.mp taken
  · obtain ⟨whole, plain⟩ := HttpParser.cutAt_eq_some.mp cut
    cases walks with
    | afterSize state _ => simp [state.hasSize] at noSize
    | atSize state reached =>
        rw [whole] at reached
        exact .afterSize (state.withSize size) ⟨reached, plain, sized⟩
  · cases walks with
    | atSize state _ => simp [state.noSize] at hasSize
    | @afterSize body line state reads =>
        obtain ⟨data, ending, whole, length, skipped⟩ := exists_chunk enough
        have positive : data ≠ [] := by
          rintro rfl
          simp [state.done, ← length] at notDone
        have after := state.withChunk length.symm positive (ending ++ rest.drop (p.chunkSize + 2))
        rw [← List.append_assoc, ← whole] at after
        obtain ⟨reached, plain, isSize⟩ := reads
        rw [whole] at reached
        refine .atSize after (.chunk reached plain (length ▸ isSize) positive skipped ?_ ?_)
        · rw [length]
          exact held
        · rw [length, ← state.got, ← state.limit]
          exact fits

theorem walks_of_leads {now later : HttpParser × Bytes} (start : AtSize maxBody now.1 [])
    (leads : Incremental.Leads decodeStep now later) : Walks maxBody now.2 later.1 later.2 := by
  induction leads with
  | refl => exact .atSize start .start
  | tail _ taken inductionHypothesis => exact walks_step inductionHypothesis taken

/-- Each walk is taken. -/
theorem leads_of_reaches (start : AtSize maxBody q []) (reaches : Reaches maxBody stream body rest) :
    ∃ p, AtSize maxBody p body ∧ Incremental.Leads decodeStep (q, stream) (p, rest) := by
  induction reaches with
  | start => exact ⟨q, start, .refl⟩
  | @chunk body line data ending rest before plain size some_ skipped held fits inductionHypothesis =>
      obtain ⟨p, state, leads⟩ := inductionHypothesis
      have sized := leads.further (state.decodeStep plain size)
      have after := state.withSize data.length
      have nonzero : data.length ≠ 0 := fun zero => some_ (List.length_eq_zero_iff.mp zero)
      have taken : (p.withSize data.length).decodeStep (data ++ ending ++ rest) =
          .next ((p.withSize data.length).withChunk (data ++ ending ++ rest)) rest := by
        refine HttpParser.decodeStep_eq_next.mpr ⟨by simp [HttpParser.withSize, nonzero],
          .inr ⟨rfl, held, ?_, ?_, rfl, ?_⟩⟩
        · simp only [HttpParser.withSize, List.length_append]
          omega
        · rw [after.got, after.limit]
          exact fits
        · have length : (p.withSize data.length).chunkSize + 2 = (data ++ ending).length := by
            simp [HttpParser.withSize, skipped]
          rw [length, List.drop_left]
      refine ⟨_, ?_, sized.further taken⟩
      rw [List.append_assoc]
      exact after.withChunk rfl some_ (ending ++ rest)

/-- The decoder ends with a body at a size of zero. -/
theorem read_done_iff (start : AtSize maxBody q []) :
    (∃ p rest, Incremental.read decodeStep q stream = .ok (p, rest) ∧ p.chunkedDone = true ∧
      p.bodyBuf = body) ↔ ∃ line rest, ReadsSize maxBody stream body line rest 0 := by
  constructor
  · rintro ⟨p, rest, result, done, isBody⟩
    have leads := ((Incremental.read_eq_ok_iff steady_decodeStep).mp result).1
    have walks : Walks maxBody stream p rest := walks_of_leads start leads
    cases walks with
    | atSize state _ => simp [state.notDone] at done
    | @afterSize body line state reads =>
        rw [state.done, decide_eq_true_eq] at done
        rw [done, ← state.isBody, isBody] at reads
        exact ⟨line, rest, reads⟩
  · rintro ⟨line, rest, reached, plain, isSize⟩
    obtain ⟨p, state, leads⟩ := leads_of_reaches start reached
    have sized := leads.further (state.decodeStep plain isSize)
    refine ⟨p.withSize 0, rest, (Incremental.read_eq_ok_iff steady_decodeStep).mpr ⟨?_, ?_⟩, rfl, ?_⟩
    · exact sized
    · exact HttpParser.decodeStep_of_done rfl
    · exact state.isBody

/-- The decoder throws at a size that wraps around, when a byte follows. -/
theorem read_lengthError_iff (start : AtSize maxBody q []) :
    (∃ p, Incremental.read decodeStep q stream = .error (.lengthError, p)) ↔
      Overlong maxBody stream := by
  constructor
  · rintro ⟨last, result⟩
    obtain ⟨p, rest, leads, halts⟩ := (Incremental.read_eq_error_iff steady_decodeStep).mp result
    have walks : Walks maxBody stream p rest := walks_of_leads start leads
    obtain ⟨-, ⟨-, _, _, -, -, wrong⟩ | ⟨-, -, -, -, wrong⟩ |
      ⟨hasSize, wraps, nonempty, -, -⟩⟩ := HttpParser.decodeStep_eq_halt.mp halts
    · cases wrong
    · cases wrong
    · cases walks with
      | atSize state _ => simp [state.noSize] at hasSize
      | @afterSize body line state reads => exact ⟨body, line, rest, _, reads, wraps, nonempty⟩
  · rintro ⟨body, line, rest, size, ⟨reached, plain, isSize⟩, wraps, nonempty⟩
    obtain ⟨p, state, leads⟩ := leads_of_reaches start reached
    have small := chunkSizeOf_lt isSize
    have sized := leads.further (state.decodeStep plain isSize)
    have large : 2 < wordValues := by decide
    have need : (size + 2) % wordValues ≤ rest.length := by
      have positive := List.length_pos_iff.mpr nonempty
      rw [Nat.mod_eq_sub_mod wraps, Nat.mod_eq_of_lt (by omega)]
      omega
    have nonzero : size ≠ 0 := by omega
    refine ⟨p.withSize size, (Incremental.read_eq_error_iff steady_decodeStep).mpr
      ⟨p.withSize size, rest, sized, HttpParser.decodeStep_eq_halt.mpr ⟨?_, ?_⟩⟩⟩
    · simp [HttpParser.withSize, nonzero]
    · exact .inr (.inr ⟨rfl, wraps, nonempty, need, rfl⟩)

end Walk

/-! ## What is accepted -/

/-- What the decoder reports as a whole body begins with the chunked coding of what it delivered,
and it never appends more than it has. -/
def AcceptsOnlyChunked (q : HttpParser) (pieces : List Bytes) : Prop :=
  ((q.feedAll pieces).2 = none → (q.feedAll pieces).1.bodyDone = true →
    ∃ coded after, pieces.flatten = coded ++ after ∧ Coding coded (q.feedAll pieces).1.bodyBuf) ∧
  (q.feedAll pieces).2 ≠ some .lengthError

/-- The parser is behind a head that announces chunks. -/
structure BehindHead (maxBody : Nat) (q : HttpParser) : Prop extends AtSize maxBody q [] where
  noBuf : q.buf = []
  headDone : q.headDone = true
  bounded : q.contentLength ≤ q.maxBody
  chunked : q.chunked = true

section Accepts

variable {maxBody : Nat} {q : HttpParser}

theorem behindHead_of_parseHead {head : Bytes}
    (parsed : (HttpParser.fresh maxBody).parseHead head = .ok q) (chunked : q.chunked = true) :
    BehindHead maxBody q := by
  obtain ⟨st, rfl | rfl | ⟨len, -, rfl⟩⟩ := HttpParser.parseHead_eq_ok parsed
  · exact ⟨⟨rfl, rfl, rfl, rfl, rfl⟩, rfl, rfl, Nat.zero_le _, rfl⟩
  · cases chunked
  · cases chunked

/-- What is seen of bytes fed in pieces behind the head. -/
theorem reading_feedAll_chunked (start : BehindHead maxBody q) (pieces : List Bytes) :
    HttpParser.reading (q.feedAll pieces) =
      HttpParser.seen (Incremental.read decodeStep q pieces.flatten) := by
  have noBuf := start.noBuf
  have same : { q with buf := [] } = q := by rw [← noBuf]
  have idle : q.feedBody = (q, none) := by
    have waits : Incremental.read decodeStep q [] = .ok (q, []) := by
      refine Incremental.read_of_more ?_
      simp [HttpParser.decodeStep]
    rw [HttpParser.feedBody_of_chunked start.chunked start.notDone, HttpParser.decodeChunked, same, noBuf,
      waits]
    simp only
    rw [if_neg (by simp [start.notDone]), same]
  rw [HttpParser.reading_feedBody pieces start.headDone start.bounded idle,
    HttpParser.feedBody_of_chunked (by exact start.chunked) (by exact start.notDone),
    HttpParser.reading_decodeChunked]
  simp only [HttpParser.push, noBuf, List.nil_append]
  rw [← noBuf]

/-- Every call returned success and the last chunk has come: then the decoder read a size of zero,
with what it delivered behind it. -/
theorem accepted_iff (start : BehindHead maxBody q) {pieces : List Bytes} {body : Bytes} :
    ((q.feedAll pieces).2 = none ∧ (q.feedAll pieces).1.bodyDone = true ∧
        (q.feedAll pieces).1.bodyBuf = body) ↔
      ∃ line rest, ReadsSize maxBody pieces.flatten body line rest 0 := by
  rw [← read_done_iff start.toAtSize]
  have shown := reading_feedAll_chunked start pieces
  cases result : Incremental.read decodeStep q pieces.flatten with
  | error stopped =>
      rw [result] at shown
      obtain ⟨stops, -⟩ := HttpParser.reading_eq shown
      simp [stops]
  | ok reached =>
      obtain ⟨p, left⟩ := reached
      rw [result] at shown
      obtain ⟨ends, alike⟩ := HttpParser.reading_eq shown
      obtain ⟨sameBody, sameDone⟩ := alike ends
      have leads := ((Incremental.read_eq_ok_iff steady_decodeStep).mp result).1
      have stillHead : p.headDone = true :=
        (HttpParser.leads_decodeStep (·.headDone) (fun _ _ => rfl) (fun _ _ => rfl) leads).trans
          start.headDone
      have stillChunked : p.chunked = true :=
        (HttpParser.leads_decodeStep (·.chunked) (fun _ _ => rfl) (fun _ _ => rfl) leads).trans
          start.chunked
      have done : p.bodyDone = p.chunkedDone := by
        simp [HttpParser.bodyDone, stillHead, stillChunked]
      rw [ends, sameBody, sameDone, done]
      simp

theorem throws_iff (start : BehindHead maxBody q) {pieces : List Bytes} :
    (q.feedAll pieces).2 = some .lengthError ↔ Overlong maxBody pieces.flatten := by
  rw [← read_lengthError_iff start.toAtSize]
  have shown := reading_feedAll_chunked start pieces
  cases result : Incremental.read decodeStep q pieces.flatten with
  | error stopped =>
      obtain ⟨stop, p⟩ := stopped
      rw [result] at shown
      rw [(HttpParser.reading_eq shown).1]
      simp
  | ok reached =>
      rw [result] at shown
      rw [(HttpParser.reading_eq shown).1]
      simp

/-- **The decoder accepts only the chunked coding, and appends only what it has, exactly when a
stream that comes to a size of zero has no flaw on the way, and no size wraps around.** -/
theorem acceptsOnlyChunked_iff {head : Bytes}
    (parsed : (HttpParser.fresh maxBody).parseHead head = .ok q) (chunked : q.chunked = true)
    (pieces : List Bytes) :
    AcceptsOnlyChunked q pieces ↔
      (Ends maxBody pieces.flatten → ¬ Flawed maxBody pieces.flatten) ∧
        ¬ Overlong maxBody pieces.flatten := by
  have start := behindHead_of_parseHead parsed chunked
  have throws : _ ↔ Overlong maxBody pieces.flatten := throws_iff start
  refine and_congr ⟨?_, ?_⟩ (not_congr throws)
  · rintro accepts ⟨body, line, rest, reads⟩
    obtain ⟨ended, done, rfl⟩ := (accepted_iff start).mpr ⟨line, rest, reads⟩
    exact (coding_iff_not_flawed reads).mp (accepts ended done)
  · intro clean ended done
    obtain ⟨line, rest, reads⟩ := (accepted_iff start).mp ⟨ended, done, rfl⟩
    exact (coding_iff_not_flawed reads).mpr (clean ⟨_, line, rest, reads⟩)

end Accepts

/-- A head that announces chunks, and the parser behind it. -/
def chunkedHead : Bytes := str "HTTP/1.1 200 OK\r\nTransfer-Encoding: chunked"

def behindChunkedHead : HttpParser where
  head := {
    code := 200
    reason := str "OK"
    headers := [⟨str "Transfer-Encoding", str "chunked"⟩] }
  maxBody := maxBodyBytes
  headDone := true
  chunked := true

theorem parseHead_chunkedHead :
    (HttpParser.fresh maxBodyBytes).parseHead chunkedHead = .ok behindChunkedHead := by
  rfl

theorem acceptsOnlyChunked_hello :
    behindChunkedHead.chunked = true ∧
      (AcceptsOnlyChunked behindChunkedHead [str "5\r\nhel", str "lo\r\n0\r\n\r\n"] ↔
        (Ends maxBodyBytes (str "5\r\nhello\r\n0\r\n\r\n") →
            ¬ Flawed maxBodyBytes (str "5\r\nhello\r\n0\r\n\r\n")) ∧
          ¬ Overlong maxBodyBytes (str "5\r\nhello\r\n0\r\n\r\n")) :=
  ⟨rfl, acceptsOnlyChunked_iff parseHead_chunkedHead rfl _⟩

/-- A stream that is flawed at its first size line. -/
theorem flawed_of_sloppy {maxBody size : Nat} {line rest : Bytes} (plain : lineFeed ∉ line)
    (isSize : chunkSizeOf line = some size) (sloppy : Sloppy line) :
    Flawed maxBody (line ++ lineFeed :: rest) :=
  ⟨[], line, rest, size, ⟨.start, plain, isSize⟩, .inl sloppy⟩

/-- A blank size line, one with blanks, one that overflows, and data without a line end are all
accepted; a size that wraps around with its line end makes the append throw. -/
theorem accepts_others :
    (HttpParser.fresh maxBodyBytes).parseHead chunkedHead = .ok behindChunkedHead ∧
      ¬ AcceptsOnlyChunked behindChunkedHead [str "\r\n"] ∧
      ¬ AcceptsOnlyChunked behindChunkedHead [str " 0\r\n"] ∧
      ¬ AcceptsOnlyChunked behindChunkedHead [str "10000000000000000\r\n"] ∧
      ¬ AcceptsOnlyChunked behindChunkedHead [str "5\r\nhelloXX0\r\n"] ∧
      ¬ AcceptsOnlyChunked behindChunkedHead [str "fffffffffffffffe\r\nx"] := by
  have refuted {stream : Bytes}
      (accepted : (behindChunkedHead.feedAll [stream]).2 = none ∧
        (behindChunkedHead.feedAll [stream]).1.bodyDone = true)
      (flawed : Flawed maxBodyBytes stream) : ¬ AcceptsOnlyChunked behindChunkedHead [stream] := by
    intro accepts
    obtain ⟨coded, after, whole, coding⟩ := accepts.1 accepted.1 accepted.2
    rw [List.flatten_singleton] at whole
    exact coding.notFlawed (whole ▸ flawed)
  have blank : Flawed maxBodyBytes (str "\r" ++ lineFeed :: []) :=
    flawed_of_sloppy (by decide +kernel) (show _ = some 0 by decide +kernel)
      (.inl (by decide +kernel))
  have padded : Flawed maxBodyBytes (str " 0\r" ++ lineFeed :: []) :=
    flawed_of_sloppy (by decide +kernel) (show _ = some 0 by decide +kernel)
      (.inr (.inl (by decide +kernel)))
  have overflowing : Flawed maxBodyBytes (str "10000000000000000\r" ++ lineFeed :: []) :=
    flawed_of_sloppy (by decide +kernel) (show _ = some 0 by decide +kernel)
      (.inr (.inr (by decide +kernel)))
  have unended : Flawed maxBodyBytes
      (str "5\r" ++ lineFeed :: (str "hello" ++ str "XX" ++ str "0\r\n")) :=
    ⟨[], str "5\r", _, 5, ⟨.start, by decide +kernel, by decide +kernel⟩,
      .inr ⟨by decide, str "hello", str "XX", str "0\r\n", rfl, by decide +kernel,
        by decide +kernel, by decide +kernel⟩⟩
  refine ⟨parseHead_chunkedHead, refuted (by decide +kernel) blank,
    refuted (by decide +kernel) padded, refuted (by decide +kernel) overflowing,
    refuted (by decide +kernel) unended, fun accepts => ?_⟩
  exact accepts.2 (by decide +kernel)

end Chunked

end Opencodepp.Net
