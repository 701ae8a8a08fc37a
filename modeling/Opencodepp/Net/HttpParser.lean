import Opencodepp.Library.Incremental
import Opencodepp.Net.Http
import Opencodepp.Net.Sse

/-!
# The response parser

Bytes of a response are fed to the parser as they come.  It buffers them until a blank line ends
the head, parses the head, and then reads the body as the head frames it: in chunks, up to a
length, or up to the end of the connection.
-/

set_option autoImplicit false

namespace Opencodepp.Net

open Opencodepp.Core
open Opencodepp.Library
open Opencodepp.Provider
open SseParser (lineFeed stripReturn)

/-! ## Small readers -/

def isTrimmed (b : UInt8) : Bool := b = 0x20 || b = 0x09

/-- A text without spaces and tabs at its ends. -/
def trim (s : Bytes) : Bytes := ((s.dropWhile isTrimmed).reverse.dropWhile isTrimmed).reverse

/-- The number of values of a 64-bit word. -/
def wordValues : Nat := 0x10000000000000000

/-- A decimal number, as far as 64 bits hold it. -/
def parseU64 (s : Bytes) : Option Nat :=
  if s = [] then none
  else if s.all isDigit then
    some (s.foldl (fun v c => (v * 10 + (c.toNat - 0x30)) % wordValues) 0)
  else none

/-- The parts of a text before and after the first occurrence of a byte. -/
def cutAt (b : UInt8) : Bytes → Option (Bytes × Bytes)
  | [] => none
  | c :: rest =>
      if c = b then some ([], rest) else (cutAt b rest).map fun parts => (c :: parts.1, parts.2)

def hexDigit (c : UInt8) : Option Nat :=
  if 0x30 ≤ c && c ≤ 0x39 then some (c.toNat - 0x30)
  else if 0x61 ≤ c && c ≤ 0x66 then some (c.toNat - 0x61 + 10)
  else if 0x41 ≤ c && c ≤ 0x46 then some (c.toNat - 0x41 + 10)
  else none

/-- The size that a chunk's first line gives: its hexadecimal digits up to an extension, as far
as 64 bits hold it.  None when another byte is among them. -/
def chunkSizeOf (line : Bytes) : Option Nat :=
  (trim ((stripReturn line).takeWhile (· ≠ 0x3b))).foldlM
    (fun size c => (hexDigit c).map fun d => (size * 16 + d) % wordValues) 0

/-! ## The head -/

/-- Why the parser stops: an error it returns, or an append of more bytes than a string can hold,
which throws. -/
inductive ParseStop
  | refused (f : Failure)
  | lengthError
  deriving DecidableEq

structure HttpResponse where
  code : Nat := 0
  reason : Bytes := []
  headers : List HttpHeader := []
  keepAlive : Bool := true
  deriving Repr, DecidableEq

structure HttpParser where
  head : HttpResponse := {}
  buf : Bytes := []
  bodyBuf : Bytes := []
  contentLength : Nat := 0
  bodyGot : Nat := 0
  maxBody : Nat
  headDone : Bool := false
  chunked : Bool := false
  chunkedSizeSeen : Bool := false
  chunkSize : Nat := 0
  chunkedDone : Bool := false
  eofFramed : Bool := false
  lengthFramed : Bool := false
  deriving Repr, DecidableEq

/-- The limit of a body that nothing else bounds. -/
def maxBodyBytes : Nat := 256 * 1024 * 1024

/-- A status line: `HTTP/…`, the code and the reason. -/
def statusLine (first : Bytes) : Option (Nat × Bytes) :=
  match cutAt 0x20 first with
  | none => none
  | some (version, after) =>
      if (str "HTTP/").isPrefixOf version then
        let parts := (cutAt 0x20 after).getD (after, [])
        match parseU64 parts.1 with
        | none => none
        | some code => if 999 < code then none else some (code, parts.2)
      else none

/-- The header fields, up to a blank line. -/
def headerFields : List Bytes → Option (List HttpHeader)
  | [] => some []
  | line :: rest =>
      if stripReturn line = [] then some []
      else
        match cutAt 0x3a (stripReturn line) with
        | none => none
        | some (name, value) => (headerFields rest).map (⟨name, trim value⟩ :: ·)

/-- The first line of the head and the lines after it.  A carriage return is taken from the first
line only where a line feed ends it. -/
def headLines (head : Bytes) : Bytes × List Bytes :=
  match cutAt lineFeed head with
  | none => (head, [])
  | some (first, rest) => (stripReturn first, rest.splitOn lineFeed)

def parseResponse (head : Bytes) : Option HttpResponse :=
  match statusLine (headLines head).1, headerFields (headLines head).2 with
  | some (code, reason), some headers =>
      some { code, reason, headers,
             keepAlive := !ciEquals (httpHeader headers (str "Connection")) (str "close") }
  | _, _ => none

namespace HttpParser

def fresh (maxBody : Nat) : HttpParser := { maxBody }

/-- Parse the head and take the framing from it: chunks win over a length. -/
def parseHead (p : HttpParser) (head : Bytes) : Except ParseStop HttpParser :=
  match parseResponse head with
  | none => .error (.refused (.of .eProtoParse))
  | some st =>
      if ciEquals (httpHeader st.headers (str "Transfer-Encoding")) (str "chunked") then
        .ok { p with
          head := st, headDone := true
          chunked := true, chunkedSizeSeen := false, chunkSize := 0, chunkedDone := false }
      else if httpHeader st.headers (str "Content-Length") = [] then
        .ok { p with head := st, headDone := true, eofFramed := true }
      else
        match parseU64 (httpHeader st.headers (str "Content-Length")) with
        | none => .error (.refused (.of .eProtoParse))
        | some len =>
            if p.maxBody < len then .error (.refused (.of .eNetOverflow))
            else .ok { p with
              head := st, headDone := true, contentLength := len, lengthFramed := true }

/-! ## The body -/

/-- A size line has been read. -/
def withSize (p : HttpParser) (size : Nat) : HttpParser :=
  { p with chunkSize := size, chunkedSizeSeen := true, chunkedDone := size = 0 }

/-- The data of the chunk has been read. -/
def withChunk (p : HttpParser) (rest : Bytes) : HttpParser :=
  { p with
    bodyBuf := p.bodyBuf ++ rest.take p.chunkSize
    bodyGot := p.bodyGot + p.chunkSize
    chunkedSizeSeen := false }

/-- One turn of the chunk loop, over the bytes that are left.  A size so large that data and line
end wrap around passes the test for enough bytes; the append of so much then throws. -/
def decodeStep (p : HttpParser) (rest : Bytes) :
    Incremental.Progress UInt8 HttpParser (ParseStop × HttpParser) :=
  if p.chunkedDone || rest.isEmpty then .more
  else if p.chunkedSizeSeen then
    let need := (p.chunkSize + 2) % wordValues
    if rest.length < need then .more
    else if wordValues ≤ p.chunkSize + 2 then .halt (.lengthError, p)
    else if p.maxBody < (p.withChunk rest).bodyGot then
      .halt (.refused (.of .eNetOverflow), p.withChunk rest)
    else .next (p.withChunk rest) (rest.drop need)
  else
    match cutAt lineFeed rest with
    | none => .more
    | some (line, rest) =>
        match chunkSizeOf line with
        | none => .halt (.refused (.of .eProtoParse), p)
        | some size => .next (p.withSize size) rest

/-- What follows the trailers, as far as they have come.  `begun` is what was passed of the line
that has not ended. -/
def skipTrailers (begun : Bytes) : Bytes → Bytes
  | [] => []
  | b :: rest =>
      if b = lineFeed then
        if stripReturn begun = [] then rest else skipTrailers [] rest
      else skipTrailers (begun ++ [b]) rest

/-- The bytes are read beside the parser, whose buffer is set at the end. -/
def decodeChunked (p : HttpParser) : HttpParser × Option ParseStop :=
  match Incremental.read decodeStep { p with buf := [] } p.buf with
  | .error (stop, q) => ({ q with buf := p.buf }, some stop)
  | .ok (q, rest) => ({ q with buf := if q.chunkedDone then skipTrailers [] rest else rest }, none)

/-- Move bytes from the buffer to the body. -/
def advance (p : HttpParser) (taken : Nat) : HttpParser :=
  { p with
    bodyBuf := p.bodyBuf ++ p.buf.take taken
    bodyGot := p.bodyGot + taken
    buf := p.buf.drop taken }

/-- The loop over a body with a length, or without one. -/
def takeBody : Nat → HttpParser → HttpParser × Option ParseStop
  | 0, p => (p, none)
  | fuel + 1, p =>
      if 0 < p.contentLength ∧ p.contentLength ≤ p.bodyGot then ({ p with buf := [] }, none)
      else
        let room := if 0 < p.contentLength then p.contentLength - p.bodyGot else maxBodyBytes
        let q := p.advance (min room p.buf.length)
        if q.maxBody < q.bodyGot then (q, some (.refused (.of .eNetOverflow)))
        else if 0 < q.contentLength ∧ q.contentLength ≤ q.bodyGot then (q, none)
        else if q.buf = [] then (q, none)
        else takeBody fuel q

/-- The body as far as it has come. -/
def feedBody (p : HttpParser) : HttpParser × Option ParseStop :=
  if p.chunked then if p.chunkedDone then (p, none) else p.decodeChunked
  else takeBody (p.buf.length + 1) p

/-- The head's text and what follows its blank line: a line feed pair counts only where there is
no pair of both line ends. -/
def headEnd (buf : Bytes) : Option (Bytes × Bytes) :=
  match indexOf (crlf ++ crlf) buf with
  | some term => some (buf.take term, buf.drop (term + 4))
  | none => (indexOf [lineFeed, lineFeed] buf).map fun alt => (buf.take alt, buf.drop (alt + 2))

/-- Parse the head's text and go on with the body. -/
def enterBody (p : HttpParser) (head rest : Bytes) : HttpParser × Option ParseStop :=
  match p.parseHead head with
  | .error stop => (p, some stop)
  | .ok q => { q with buf := rest }.feedBody

def feed (p : HttpParser) (input : Bytes) : HttpParser × Option ParseStop :=
  if input = [] then (p, none)
  else
    let p := { p with buf := p.buf ++ input }
    if p.headDone then p.feedBody
    else
      match headEnd p.buf with
      | none =>
          if maxHeadBytes < p.buf.length then (p, some (.refused (.of .eNetOverflow)))
          else (p, none)
      | some (head, rest) => p.enterBody head rest

/-- Calls one after the other, up to the first that fails. -/
def feedAll (p : HttpParser) : List Bytes → HttpParser × Option ParseStop
  | [] => (p, none)
  | piece :: rest =>
      match p.feed piece with
      | (q, some stop) => (q, some stop)
      | (q, none) => q.feedAll rest

def bodyDone (p : HttpParser) : Bool :=
  p.headDone &&
    if p.chunked then p.chunkedDone
    else p.lengthFramed && decide (p.contentLength ≤ p.bodyGot)

/-! ## What the readers do -/

theorem cutAt_eq_some {b : UInt8} : ∀ {s before after : Bytes},
    cutAt b s = some (before, after) ↔ s = before ++ b :: after ∧ b ∉ before := by
  intro s
  induction s with
  | nil => simp [cutAt]
  | cons c rest inductionHypothesis =>
      intro before after
      unfold cutAt
      by_cases same : c = b
      · subst same
        cases before with
        | nil => simp
        | cons d before => simp +contextual [eq_comm]
      · cases before with
        | nil => simp [same]
        | cons d before =>
            simp only [same, if_false, Option.map_eq_some_iff, Prod.mk.injEq, List.cons.injEq,
              List.cons_append, List.mem_cons, not_or]
            constructor
            · rintro ⟨⟨front, back⟩, cut, ⟨rfl, rfl⟩, rfl⟩
              obtain ⟨whole, absent⟩ := inductionHypothesis.mp cut
              exact ⟨⟨rfl, whole⟩, Ne.symm same, absent⟩
            · rintro ⟨⟨rfl, whole⟩, -, absent⟩
              exact ⟨(before, after), inductionHypothesis.mpr ⟨whole, absent⟩, ⟨rfl, rfl⟩, rfl⟩

theorem cutAt_append {b : UInt8} {s before after : Bytes} (cut : cutAt b s = some (before, after))
    (more : Bytes) : cutAt b (s ++ more) = some (before, after ++ more) := by
  obtain ⟨rfl, absent⟩ := cutAt_eq_some.mp cut
  exact cutAt_eq_some.mpr ⟨by simp, absent⟩

/-- What a parsed head makes of the parser, by its framing. -/
theorem parseHead_eq_ok {p q : HttpParser} {head : Bytes} (parsed : p.parseHead head = .ok q) :
    ∃ st, q = { p with
          head := st, headDone := true
          chunked := true, chunkedSizeSeen := false, chunkSize := 0, chunkedDone := false } ∨
      q = { p with head := st, headDone := true, eofFramed := true } ∨
      ∃ len ≤ p.maxBody, q = { p with
          head := st, headDone := true, contentLength := len, lengthFramed := true } := by
  unfold parseHead at parsed
  cases response : parseResponse head with
  | none => simp [response] at parsed
  | some st =>
      simp only [response] at parsed
      refine ⟨st, ?_⟩
      split at parsed
      · cases parsed
        exact .inl rfl
      · split at parsed
        · cases parsed
          exact .inr (.inl rfl)
        · cases number : parseU64 (httpHeader st.headers (str "Content-Length")) with
          | none => simp [number] at parsed
          | some len =>
              simp only [number] at parsed
              split at parsed
              · cases parsed
              · next fits =>
                  cases parsed
                  exact .inr (.inr ⟨len, Nat.le_of_not_lt fits, rfl⟩)

section Turns

variable {p q : HttpParser} {rest left : Bytes}

theorem decodeStep_of_done (done : p.chunkedDone = true) : p.decodeStep rest = .more := by
  unfold decodeStep
  rw [done]
  rfl

/-- A turn that looks for a size line. -/
theorem decodeStep_of_size (notDone : p.chunkedDone = false) (noSize : p.chunkedSizeSeen = false) :
    p.decodeStep rest = ((cutAt lineFeed rest).map fun parts =>
      ((chunkSizeOf parts.1).map fun size => .next (p.withSize size) parts.2).getD
        (.halt (.refused (.of .eProtoParse), p))).getD .more := by
  unfold decodeStep
  rw [notDone, noSize]
  cases rest with
  | nil => rfl
  | cons b rest =>
      cases cutAt lineFeed (b :: rest) with
      | none => rfl
      | some parts =>
          cases sized : chunkSizeOf parts.1 with
          | none => simp [sized]
          | some size => simp [sized]

/-- A turn that waits for the data of a chunk, of a size that 64 bits hold with its line end. -/
theorem decodeStep_of_data (notDone : p.chunkedDone = false) (size : p.chunkedSizeSeen = true)
    (held : p.chunkSize + 2 < wordValues) :
    p.decodeStep rest =
      if rest.length < p.chunkSize + 2 then .more
      else if p.maxBody < p.bodyGot + p.chunkSize then
        .halt (.refused (.of .eNetOverflow), p.withChunk rest)
      else .next (p.withChunk rest) (rest.drop (p.chunkSize + 2)) := by
  unfold decodeStep
  rw [notDone, size, Nat.mod_eq_of_lt held]
  cases rest with
  | nil => simp
  | cons b rest => simp [Nat.not_le.mpr held, withChunk]

/-- A turn that waits for the data of a chunk whose size wraps around with its line end. -/
theorem decodeStep_of_wrapped (notDone : p.chunkedDone = false) (size : p.chunkedSizeSeen = true)
    (wraps : wordValues ≤ p.chunkSize + 2) :
    p.decodeStep rest =
      if rest = [] ∨ rest.length < (p.chunkSize + 2) % wordValues then .more
      else .halt (.lengthError, p) := by
  unfold decodeStep
  rw [notDone, size]
  cases rest with
  | nil => rfl
  | cons b rest => simp [wraps]

/-- A turn takes a size line, or a chunk that has come whole. -/
theorem decodeStep_eq_next : p.decodeStep rest = .next q left ↔
    p.chunkedDone = false ∧
      ((p.chunkedSizeSeen = false ∧ ∃ line size, cutAt lineFeed rest = some (line, left) ∧
          chunkSizeOf line = some size ∧ q = p.withSize size) ∨
        (p.chunkedSizeSeen = true ∧ p.chunkSize + 2 < wordValues ∧
          p.chunkSize + 2 ≤ rest.length ∧ p.bodyGot + p.chunkSize ≤ p.maxBody ∧
          q = p.withChunk rest ∧ left = rest.drop (p.chunkSize + 2))) := by
  cases notDone : p.chunkedDone with
  | true => simp [decodeStep_of_done notDone]
  | false =>
      cases size : p.chunkedSizeSeen with
      | false =>
          rw [decodeStep_of_size notDone size]
          cases cut : cutAt lineFeed rest with
          | none => simp
          | some parts =>
              obtain ⟨line, after⟩ := parts
              cases sized : chunkSizeOf line with
              | none => simp +contextual [sized]
              | some n => simp +contextual [sized, eq_comm, and_comm]
      | true =>
          by_cases held : p.chunkSize + 2 < wordValues
          · rw [decodeStep_of_data notDone size held]
            split
            · next short => simp [Nat.not_le.mpr short]
            · next enough =>
                split
                · next tooMuch => simp [Nat.not_le.mpr tooMuch]
                · next fits => simp [held, Nat.le_of_not_lt enough, Nat.le_of_not_lt fits, eq_comm]
          · rw [decodeStep_of_wrapped notDone size (Nat.le_of_not_lt held)]
            split
            · simp [held]
            · simp [held]

/-- A turn stops at a line that is no size, at a body that grows too large, and where an append
throws. -/
theorem decodeStep_eq_halt {r : ParseStop × HttpParser} : p.decodeStep rest = .halt r ↔
    p.chunkedDone = false ∧
      ((p.chunkedSizeSeen = false ∧ ∃ line left, cutAt lineFeed rest = some (line, left) ∧
          chunkSizeOf line = none ∧ r = (.refused (.of .eProtoParse), p)) ∨
        (p.chunkedSizeSeen = true ∧ p.chunkSize + 2 < wordValues ∧
          p.chunkSize + 2 ≤ rest.length ∧ p.maxBody < p.bodyGot + p.chunkSize ∧
          r = (.refused (.of .eNetOverflow), p.withChunk rest)) ∨
        (p.chunkedSizeSeen = true ∧ wordValues ≤ p.chunkSize + 2 ∧ rest ≠ [] ∧
          (p.chunkSize + 2) % wordValues ≤ rest.length ∧ r = (.lengthError, p))) := by
  cases notDone : p.chunkedDone with
  | true => simp [decodeStep_of_done notDone]
  | false =>
      cases size : p.chunkedSizeSeen with
      | false =>
          rw [decodeStep_of_size notDone size]
          cases cut : cutAt lineFeed rest with
          | none => simp
          | some parts =>
              obtain ⟨line, after⟩ := parts
              cases sized : chunkSizeOf line with
              | none => simp +contextual [sized, eq_comm]
              | some n => simp +contextual [sized]
      | true =>
          by_cases held : p.chunkSize + 2 < wordValues
          · rw [decodeStep_of_data notDone size held]
            split
            · next short => simp [Nat.not_le.mpr short, Nat.not_le.mpr held]
            · next enough =>
                split
                · next tooMuch =>
                    simp [held, Nat.le_of_not_lt enough, tooMuch, Nat.not_le.mpr held, eq_comm]
                · next fits => simp [fits, Nat.not_le.mpr held]
          · rw [decodeStep_of_wrapped notDone size (Nat.le_of_not_lt held)]
            split
            · next waits =>
                rcases waits with empty | short
                · simp [held, empty]
                · simp [held, Nat.not_le.mpr short]
            · next enough =>
                obtain ⟨nonempty, need⟩ := not_or.mp enough
                simp [held, Nat.le_of_not_lt held, nonempty, Nat.le_of_not_lt need, eq_comm]

theorem withChunk_append (enough : p.chunkSize ≤ rest.length) (more : Bytes) :
    p.withChunk (rest ++ more) = p.withChunk rest := by
  unfold withChunk
  rw [List.take_append_of_le_length enough]

/-- More bytes do not change what the chunk loop did. -/
theorem steady_decodeStep : Incremental.Steady decodeStep where
  next := by
    intro p q rest left taken more
    obtain ⟨notDone, ⟨noSize, line, size, cut, sized, rfl⟩ |
      ⟨size, held, enough, fits, rfl, rfl⟩⟩ := decodeStep_eq_next.mp taken
    · exact decodeStep_eq_next.mpr
        ⟨notDone, .inl ⟨noSize, line, size, cutAt_append cut more, sized, rfl⟩⟩
    · refine decodeStep_eq_next.mpr ⟨notDone, .inr ⟨size, held, ?_, fits, ?_, ?_⟩⟩
      · exact Nat.le_trans enough (by simp)
      · exact (withChunk_append (by omega) more).symm
      · exact (List.drop_append_of_le_length enough).symm
  halt := by
    intro p r rest stopped more
    obtain ⟨notDone, ⟨noSize, line, left, cut, sized, rfl⟩ |
      ⟨size, held, enough, tooMuch, rfl⟩ | ⟨size, wraps, nonempty, need, rfl⟩⟩ :=
        decodeStep_eq_halt.mp stopped
    · exact decodeStep_eq_halt.mpr
        ⟨notDone, .inl ⟨noSize, line, left ++ more, cutAt_append cut more, sized, rfl⟩⟩
    · refine decodeStep_eq_halt.mpr ⟨notDone, .inr (.inl ⟨size, held, ?_, tooMuch, ?_⟩)⟩
      · exact Nat.le_trans enough (by simp)
      · rw [withChunk_append (by omega)]
    · refine decodeStep_eq_halt.mpr ⟨notDone, .inr (.inr ⟨size, wraps, ?_, ?_, rfl⟩)⟩
      · exact fun empty => nonempty (List.append_eq_nil_iff.mp empty).1
      · exact Nat.le_trans need (by simp)
  shrinks := by
    intro p q rest left taken
    obtain ⟨-, ⟨-, line, size, cut, -, -⟩ | ⟨-, -, enough, -, -, rfl⟩⟩ :=
      decodeStep_eq_next.mp taken
    · rw [(cutAt_eq_some.mp cut).1]
      simp only [List.length_append, List.length_cons]
      omega
    · rw [List.length_drop]
      omega

end Turns

end HttpParser

end Opencodepp.Net
