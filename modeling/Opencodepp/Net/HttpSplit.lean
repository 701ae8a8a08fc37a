import Opencodepp.Net.HttpParser

/-!
# A response fed in pieces

The result of parsing is to depend on the bytes of the response, not on how they are cut into
calls.  For the body this is so in each framing (`reading_feedBody`).  For the head it is not: a
pair of line feeds ends it, but not where a pair of both line ends has come as well, however far
behind.  `reading_unique_iff` says which responses suffer from it.
-/

set_option autoImplicit false

namespace Opencodepp.Net

open Opencodepp.Core
open Opencodepp.Library
open SseParser (lineFeed)

/-- What a caller sees of the parser. -/
structure Reading where
  stop : Option ParseStop
  head : Option HttpResponse
  chunked : Bool
  eofFramed : Bool
  lengthFramed : Bool
  contentLength : Nat
  body : Bytes
  bodyDone : Bool
  deriving DecidableEq

namespace HttpParser

/-- What a caller sees after calls; nothing when they ran into a size limit. -/
def reading (outcome : HttpParser × Option ParseStop) : Option Reading :=
  if outcome.2 = some (.refused (.of .eNetOverflow)) then none
  else some {
    stop := outcome.2
    head := if outcome.1.headDone then some outcome.1.head else none
    chunked := outcome.1.chunked
    eofFramed := outcome.1.eofFramed
    lengthFramed := outcome.1.lengthFramed
    contentLength := outcome.1.contentLength
    body := outcome.1.bodyBuf
    bodyDone := outcome.1.bodyDone }

/-- What is buffered is not seen. -/
@[simp] theorem reading_buf (p : HttpParser) (buf : Bytes) (stop : Option ParseStop) :
    reading ({ p with buf }, stop) = reading (p, stop) := rfl

theorem reading_overflow (p : HttpParser) :
    reading (p, some (.refused (.of .eNetOverflow))) = none :=
  if_pos rfl

/-- Equal readings are of calls that ended alike, and delivered alike where they were not refused. -/
theorem reading_eq {first second : HttpParser × Option ParseStop}
    (same : reading first = reading second) :
    first.2 = second.2 ∧ (first.2 = none →
      first.1.bodyBuf = second.1.bodyBuf ∧ first.1.bodyDone = second.1.bodyDone) := by
  by_cases capped : first.2 = some (.refused (.of .eNetOverflow))
  · by_cases alsoCapped : second.2 = some (.refused (.of .eNetOverflow))
    · exact ⟨capped.trans alsoCapped.symm, fun none_ => by simp [none_] at capped⟩
    · rw [reading, if_pos capped, reading, if_neg alsoCapped] at same
      cases same
  · by_cases alsoCapped : second.2 = some (.refused (.of .eNetOverflow))
    · rw [reading, if_neg capped, reading, if_pos alsoCapped] at same
      cases same
    · rw [reading, if_neg capped, reading, if_neg alsoCapped] at same
      simp only [Option.some.injEq, Reading.mk.injEq] at same
      obtain ⟨stop, -, -, -, -, -, body, done⟩ := same
      exact ⟨stop, fun _ => ⟨body, done⟩⟩

/-- More bytes in the buffer. -/
def push (p : HttpParser) (more : Bytes) : HttpParser := { p with buf := p.buf ++ more }

/-! ## Bodies with a length, or up to the end -/

section Bodies

variable {p q : HttpParser}

@[simp] theorem advance_buf (p : HttpParser) (n : Nat) : (p.advance n).buf = p.buf.drop n := rfl

@[simp] theorem advance_bodyGot (p : HttpParser) (n : Nat) :
    (p.advance n).bodyGot = p.bodyGot + n := rfl

@[simp] theorem advance_contentLength (p : HttpParser) (n : Nat) :
    (p.advance n).contentLength = p.contentLength := rfl

@[simp] theorem advance_maxBody (p : HttpParser) (n : Nat) : (p.advance n).maxBody = p.maxBody := rfl

theorem advance_advance (p : HttpParser) (m n : Nat) :
    (p.advance m).advance n = p.advance (m + n) := by
  simp [advance, List.take_add, Nat.add_assoc, List.drop_drop, List.append_assoc]

/-- Without a length everything is taken, in rounds of a fixed size. -/
theorem takeBody_all : ∀ (fuel : Nat) {p : HttpParser}, p.contentLength = 0 →
    p.buf.length < fuel →
      (p.bodyGot + p.buf.length ≤ p.maxBody → takeBody fuel p = (p.advance p.buf.length, none)) ∧
        (p.maxBody < p.bodyGot + p.buf.length →
          ∃ q, takeBody fuel p = (q, some (.refused (.of .eNetOverflow)))) := by
  intro fuel
  induction fuel with
  | zero => exact fun _ enough => absurd enough (Nat.not_lt_zero _)
  | succ fuel inductionHypothesis =>
      intro p noLength enough
      have round : 0 < maxBodyBytes := by decide
      have taken_le : min maxBodyBytes p.buf.length ≤ p.buf.length := Nat.min_le_right _ _
      unfold takeBody
      simp only [noLength, Nat.lt_irrefl, false_and, if_false, advance_bodyGot, advance_maxBody,
        advance_contentLength, advance_buf]
      by_cases tooMuch : p.maxBody < p.bodyGot + min maxBodyBytes p.buf.length
      · rw [if_pos tooMuch]
        exact ⟨fun fits => by omega, fun _ => ⟨_, rfl⟩⟩
      · rw [if_neg tooMuch]
        by_cases finished : p.buf.drop (min maxBodyBytes p.buf.length) = []
        · have all : min maxBodyBytes p.buf.length = p.buf.length :=
            Nat.le_antisymm taken_le (List.drop_eq_nil_iff.mp finished)
          rw [if_pos finished, all]
          rw [all] at tooMuch
          exact ⟨fun _ => rfl, fun exceeds => absurd exceeds tooMuch⟩
        · rw [if_neg finished]
          have some_ : 0 < p.buf.length := by
            by_contra empty
            exact finished (by rw [List.length_eq_zero_iff.mp (Nat.eq_zero_of_not_pos empty)]; simp)
          have length : (p.advance (min maxBodyBytes p.buf.length)).buf.length =
              p.buf.length - min maxBodyBytes p.buf.length := List.length_drop
          obtain ⟨within, beyond⟩ :=
            inductionHypothesis (p := p.advance (min maxBodyBytes p.buf.length)) noLength
              (by rw [length]; omega)
          rw [length, advance_bodyGot, advance_maxBody] at within beyond
          refine ⟨fun fits => ?_, fun exceeds => beyond (by omega)⟩
          rw [within (by omega), advance_advance, Nat.add_sub_of_le taken_le]

/-- With a length, what it leaves room for is taken. -/
theorem takeBody_length (fuel : Nat) (length : 0 < p.contentLength)
    (fits : p.contentLength ≤ p.maxBody) :
    takeBody (fuel + 1) p =
      if p.contentLength ≤ p.bodyGot then ({ p with buf := [] }, none)
      else (p.advance (min (p.contentLength - p.bodyGot) p.buf.length), none) := by
  unfold takeBody
  simp only [length, true_and, if_true, advance_bodyGot, advance_maxBody, advance_contentLength,
    advance_buf]
  split
  · rfl
  · next unfinished =>
      have within : ¬ p.maxBody <
          p.bodyGot + min (p.contentLength - p.bodyGot) p.buf.length := by omega
      rw [if_neg within]
      split
      · rfl
      · next short =>
          have all : p.buf.drop (min (p.contentLength - p.bodyGot) p.buf.length) = [] :=
            List.drop_eq_nil_iff.mpr (by omega)
          rw [if_pos all]

theorem feedBody_of_plain (plain : p.chunked = false) :
    p.feedBody = takeBody (p.buf.length + 1) p := by
  simp [feedBody, plain]

/-- Taking the buffer, then some of what comes next. -/
theorem advance_push (p : HttpParser) (more : Bytes) (n : Nat) :
    ((p.advance p.buf.length).push more).advance n =
      (p.push more).advance (p.buf.length + n) := by
  have whole : p.buf.take (p.buf.length + n) = p.buf := List.take_of_length_le (by omega)
  simp [advance, push, List.take_append, Nat.add_assoc, whole]

/-- A body without a length goes on where it waited. -/
theorem reading_all_push (plain : p.chunked = false) (noLength : p.contentLength = 0)
    (waited : p.feedBody = (q, none)) (more : Bytes) :
    q = p.advance p.buf.length ∧
      reading (q.push more).feedBody = reading (p.push more).feedBody := by
  have fuel := Nat.lt_succ_self p.buf.length
  rw [feedBody_of_plain plain] at waited
  have fits : p.bodyGot + p.buf.length ≤ p.maxBody := by
    by_contra exceeds
    obtain ⟨last, stopped⟩ := (takeBody_all _ noLength fuel).2 (Nat.lt_of_not_le exceeds)
    rw [stopped] at waited
    simp at waited
  rw [(takeBody_all _ noLength fuel).1 fits] at waited
  obtain rfl : p.advance p.buf.length = q := (Prod.mk.inj waited).1
  refine ⟨rfl, ?_⟩
  have left := takeBody_all _ (p := (p.advance p.buf.length).push more) noLength
    (Nat.lt_succ_self _)
  have whole := takeBody_all _ (p := p.push more) noLength (Nat.lt_succ_self _)
  have leftLength : ((p.advance p.buf.length).push more).buf.length = more.length := by
    simp [advance, push]
  have wholeLength : (p.push more).buf.length = p.buf.length + more.length := by
    simp [push]
  have leftGot : ((p.advance p.buf.length).push more).bodyGot = p.bodyGot + p.buf.length := rfl
  rw [feedBody_of_plain (by exact plain), feedBody_of_plain (p := p.push more) plain]
  rw [leftLength] at left ⊢
  rw [wholeLength] at whole ⊢
  by_cases within : p.bodyGot + (p.buf.length + more.length) ≤ p.maxBody
  · rw [left.1 (by rw [leftGot, Nat.add_assoc]; exact within), whole.1 within, advance_push]
  · have exceeds := Nat.lt_of_not_le within
    obtain ⟨first, stopped⟩ := left.2 (by rw [leftGot, Nat.add_assoc]; exact exceeds)
    obtain ⟨second, alsoStopped⟩ := whole.2 exceeds
    rw [stopped, alsoStopped, reading_overflow, reading_overflow]

theorem reading_all_push_of_stop {stop : ParseStop} (plain : p.chunked = false)
    (noLength : p.contentLength = 0) (stopped : p.feedBody = (q, some stop)) (more : Bytes) :
    reading (p.push more).feedBody = reading (q, some stop) := by
  have fuel := Nat.lt_succ_self p.buf.length
  rw [feedBody_of_plain plain] at stopped
  have exceeds : p.maxBody < p.bodyGot + p.buf.length := by
    by_contra fits
    rw [(takeBody_all _ noLength fuel).1 (Nat.le_of_not_lt fits)] at stopped
    cases stopped
  obtain ⟨last, overflow⟩ := (takeBody_all _ noLength fuel).2 exceeds
  have longer : (p.push more).maxBody < (p.push more).bodyGot + (p.push more).buf.length := by
    simp only [push, List.length_append]
    omega
  obtain ⟨later, alsoOverflow⟩ :=
    (takeBody_all _ (p := p.push more) noLength (Nat.lt_succ_self _)).2 longer
  rw [overflow] at stopped
  rw [feedBody_of_plain (p := p.push more) plain, alsoOverflow, reading_overflow, ← stopped,
    reading_overflow]

/-- A body with a length goes on where it waited. -/
theorem reading_length_push (plain : p.chunked = false) (length : 0 < p.contentLength)
    (bounded : p.contentLength ≤ p.maxBody) (waited : p.feedBody = (q, none)) (more : Bytes) :
    reading (q.push more).feedBody = reading (p.push more).feedBody := by
  rw [feedBody_of_plain plain, takeBody_length _ length bounded] at waited
  rw [feedBody_of_plain (p := p.push more) plain,
    takeBody_length (p := p.push more) _ length bounded]
  have pushed : (p.push more).buf.length = p.buf.length + more.length := by simp [push]
  split at waited
  · next finished =>
      obtain rfl : { p with buf := [] } = q := (Prod.mk.inj waited).1
      rw [feedBody_of_plain (by exact plain), takeBody_length _ (by exact length) (by exact bounded)]
      simp only [push, finished, if_true, reading_buf]
  · next unfinished =>
      obtain rfl := (Prod.mk.inj waited).1
      rw [if_neg (by exact unfinished), feedBody_of_plain (by exact plain),
        takeBody_length _ (by exact length) (by exact bounded)]
      by_cases full : p.contentLength - p.bodyGot ≤ p.buf.length
      · have taken : min (p.contentLength - p.bodyGot) p.buf.length =
            p.contentLength - p.bodyGot := Nat.min_eq_left full
        have same : min ((p.push more).contentLength - (p.push more).bodyGot)
            (p.push more).buf.length = p.contentLength - p.bodyGot := by
          rw [pushed]
          exact Nat.min_eq_left (Nat.le_trans full (Nat.le_add_right _ _))
        rw [taken, same, if_pos (by simp only [push, advance]; omega)]
        simp only [push, advance, List.take_append_of_le_length full]
        rfl
      · have taken : min (p.contentLength - p.bodyGot) p.buf.length = p.buf.length :=
          Nat.min_eq_right (by omega)
        rw [taken, if_neg (by simp only [push, advance]; omega), advance_push]
        congr 3
        simp only [push, advance, List.drop_length, List.nil_append, List.length_append]
        omega

end Bodies

/-! ## Chunked bodies -/

section Chunks

variable {p q : HttpParser} {rest : Bytes}

/-- The chunk loop leaves alone what reading a size or a chunk leaves alone. -/
theorem leads_decodeStep {γ : Type} (field : HttpParser → γ)
    (keptBySize : ∀ p size, field (withSize p size) = field p)
    (keptByChunk : ∀ p rest, field (withChunk p rest) = field p)
    {now later : HttpParser × Bytes} (leads : Incremental.Leads decodeStep now later) :
    field later.1 = field now.1 := by
  induction leads with
  | refl => rfl
  | tail _ taken inductionHypothesis =>
      obtain ⟨-, ⟨-, line, size, -, -, same⟩ | ⟨-, -, -, -, same, -⟩⟩ :=
        decodeStep_eq_next.mp taken
      · rw [same, keptBySize, inductionHypothesis]
      · rw [same, keptByChunk, inductionHypothesis]

/-- What a caller sees of a chunk loop's result. -/
def seen : Except (ParseStop × HttpParser) (HttpParser × Bytes) → Option Reading
  | .error (stop, q) => reading (q, some stop)
  | .ok (q, _) => reading (q, none)

theorem reading_decodeChunked (p : HttpParser) :
    reading p.decodeChunked = seen (Incremental.read decodeStep { p with buf := [] } p.buf) := by
  unfold decodeChunked
  cases Incremental.read decodeStep { p with buf := [] } p.buf with
  | error result => rfl
  | ok result => rfl

theorem feedBody_of_chunked (chunked : p.chunked = true) (notDone : p.chunkedDone = false) :
    p.feedBody = p.decodeChunked := by
  simp [feedBody, chunked, notDone]

theorem feedBody_of_chunkedDone (chunked : p.chunked = true) (done : p.chunkedDone = true) :
    p.feedBody = (p, none) := by
  simp [feedBody, chunked, done]

/-- The chunk loop goes on where it waited. -/
theorem reading_chunked_push (chunked : p.chunked = true) (notDone : p.chunkedDone = false)
    (waited : p.feedBody = (q, none)) (more : Bytes) :
    reading (q.push more).feedBody = reading (p.push more).feedBody := by
  have whole : reading (p.push more).feedBody =
      seen (Incremental.read decodeStep { p with buf := [] } (p.buf ++ more)) := by
    rw [feedBody_of_chunked (p := p.push more) chunked notDone, reading_decodeChunked]
    rfl
  rw [feedBody_of_chunked chunked notDone, decodeChunked] at waited
  cases result : Incremental.read decodeStep { p with buf := [] } p.buf with
  | error stopped => simp [result] at waited
  | ok reached =>
      obtain ⟨last, left⟩ := reached
      simp only [result, Prod.mk.injEq, and_true] at waited
      have leads := ((Incremental.read_eq_ok_iff steady_decodeStep).mp result).1
      have stillChunked : last.chunked = true :=
        (leads_decodeStep (·.chunked) (fun _ _ => rfl) (fun _ _ => rfl) leads).trans chunked
      have noBuf : last.buf = [] :=
        leads_decodeStep (·.buf) (fun _ _ => rfl) (fun _ _ => rfl) leads
      rw [whole, Incremental.read_append steady_decodeStep result, ← waited]
      by_cases done : last.chunkedDone = true
      · rw [feedBody_of_chunkedDone (by exact stillChunked) (by exact done),
          Incremental.read_of_more (decodeStep_of_done done)]
        rfl
      · have waiting : last.chunkedDone = false := Bool.not_eq_true _ ▸ done
        rw [feedBody_of_chunked (by exact stillChunked) (by exact waiting), reading_decodeChunked]
        have same : { last with buf := [] } = last := by rw [← noBuf]
        simp only [push]
        rw [if_neg done, same]

theorem reading_chunked_push_of_stop {stop : ParseStop} (chunked : p.chunked = true)
    (notDone : p.chunkedDone = false) (stopped : p.feedBody = (q, some stop)) (more : Bytes) :
    reading (p.push more).feedBody = reading (q, some stop) := by
  rw [feedBody_of_chunked chunked notDone, decodeChunked] at stopped
  rw [feedBody_of_chunked (p := p.push more) chunked notDone, reading_decodeChunked]
  cases result : Incremental.read decodeStep { p with buf := [] } p.buf with
  | ok reached => simp [result] at stopped
  | error reached =>
      obtain ⟨why, last⟩ := reached
      simp only [result, Prod.mk.injEq, Option.some.injEq] at stopped
      obtain ⟨rfl, rfl⟩ := stopped
      have again := Incremental.read_append_of_error steady_decodeStep result more
      simp only [push]
      rw [again]
      rfl

end Chunks

/-! ## Any body -/

section Feeding

variable {p q : HttpParser}

/-- What the body leaves alone. -/
structure Framed (p q : HttpParser) : Prop where
  headDone : q.headDone = p.headDone
  contentLength : q.contentLength = p.contentLength
  maxBody : q.maxBody = p.maxBody

theorem framed_feedBody (bounded : p.contentLength ≤ p.maxBody)
    (waited : p.feedBody = (q, none)) : Framed p q := by
  by_cases chunked : p.chunked = true
  · by_cases done : p.chunkedDone = true
    · rw [feedBody_of_chunkedDone chunked done] at waited
      obtain rfl := (Prod.mk.inj waited).1
      exact ⟨rfl, rfl, rfl⟩
    · rw [feedBody_of_chunked chunked (Bool.not_eq_true _ ▸ done), decodeChunked] at waited
      cases result : Incremental.read decodeStep { p with buf := [] } p.buf with
      | error stopped => simp [result] at waited
      | ok reached =>
          have leads := ((Incremental.read_eq_ok_iff steady_decodeStep).mp result).1
          simp only [result, Prod.mk.injEq, and_true] at waited
          rw [← waited]
          exact ⟨leads_decodeStep (·.headDone) (fun _ _ => rfl) (fun _ _ => rfl) leads,
            leads_decodeStep (·.contentLength) (fun _ _ => rfl) (fun _ _ => rfl) leads,
            leads_decodeStep (·.maxBody) (fun _ _ => rfl) (fun _ _ => rfl) leads⟩
  · have plain : p.chunked = false := Bool.not_eq_true _ ▸ chunked
    rcases Nat.eq_zero_or_pos p.contentLength with noLength | length
    · rw [(reading_all_push plain noLength waited []).1]
      exact ⟨rfl, rfl, rfl⟩
    · rw [feedBody_of_plain plain, takeBody_length _ length bounded] at waited
      split at waited
      · obtain rfl := (Prod.mk.inj waited).1
        exact ⟨rfl, rfl, rfl⟩
      · obtain rfl := (Prod.mk.inj waited).1
        exact ⟨rfl, rfl, rfl⟩

/-- A body goes on where it waited. -/
theorem reading_push (bounded : p.contentLength ≤ p.maxBody) (waited : p.feedBody = (q, none))
    (more : Bytes) : reading (q.push more).feedBody = reading (p.push more).feedBody := by
  by_cases chunked : p.chunked = true
  · by_cases done : p.chunkedDone = true
    · rw [feedBody_of_chunkedDone chunked done] at waited
      obtain rfl := (Prod.mk.inj waited).1
      rfl
    · exact reading_chunked_push chunked (Bool.not_eq_true _ ▸ done) waited more
  · have plain : p.chunked = false := Bool.not_eq_true _ ▸ chunked
    rcases Nat.eq_zero_or_pos p.contentLength with noLength | length
    · exact (reading_all_push plain noLength waited more).2
    · exact reading_length_push plain length bounded waited more

/-- A body that was refused stays refused. -/
theorem reading_push_of_stop {stop : ParseStop} (bounded : p.contentLength ≤ p.maxBody)
    (stopped : p.feedBody = (q, some stop)) (more : Bytes) :
    reading (p.push more).feedBody = reading (q, some stop) := by
  by_cases chunked : p.chunked = true
  · by_cases done : p.chunkedDone = true
    · rw [feedBody_of_chunkedDone chunked done] at stopped
      cases stopped
    · exact reading_chunked_push_of_stop chunked (Bool.not_eq_true _ ▸ done) stopped more
  · have plain : p.chunked = false := Bool.not_eq_true _ ▸ chunked
    rcases Nat.eq_zero_or_pos p.contentLength with noLength | length
    · exact reading_all_push_of_stop plain noLength stopped more
    · rw [feedBody_of_plain plain, takeBody_length _ length bounded] at stopped
      split at stopped <;> cases stopped

theorem push_push (p : HttpParser) (first second : Bytes) :
    (p.push first).push second = p.push (first ++ second) := by
  simp [push]

theorem push_nil (p : HttpParser) : p.push [] = p := by
  simp [push]

/-- **After the head the pieces do not matter**: what is seen is what the whole body gives. -/
theorem reading_feedBody : ∀ (pieces : List Bytes) {p q : HttpParser}, p.headDone = true →
    p.contentLength ≤ p.maxBody → p.feedBody = (q, none) →
      reading (q.feedAll pieces) = reading (p.push pieces.flatten).feedBody := by
  intro pieces
  induction pieces with
  | nil =>
      intro p q _ _ waited
      rw [List.flatten_nil, push_nil, waited]
      rfl
  | cons piece rest inductionHypothesis =>
      intro p q headDone bounded waited
      by_cases empty : piece = []
      · rw [empty, List.flatten_cons, List.nil_append]
        exact inductionHypothesis headDone bounded waited
      · have framed := framed_feedBody bounded waited
        have stillBounded : q.contentLength ≤ q.maxBody := by
          rw [framed.contentLength, framed.maxBody]
          exact bounded
        have fed : q.feed piece = (q.push piece).feedBody := by
          rw [feed, if_neg empty]
          exact if_pos (framed.headDone.trans headDone)
        rw [List.flatten_cons, ← reading_push bounded waited, ← push_push, feedAll, fed]
        cases outcome : (q.push piece).feedBody with
        | mk last stop =>
            cases stop with
            | some stop => exact (reading_push_of_stop (by exact stillBounded) outcome _).symm
            | none =>
                exact inductionHypothesis (p := q.push piece) (framed.headDone.trans headDone)
                  stillBounded outcome

end Feeding

/-! ## The end of the head -/

/-- What is seen of a response whose head has the given text. -/
def readMessage (maxBody : Nat) (head body : Bytes) : Option Reading :=
  reading ((fresh maxBody).enterBody head body)

/-- The buffer plays no part in parsing the head. -/
theorem parseHead_buf (p : HttpParser) (buf head : Bytes) :
    parseHead { p with buf } head = (p.parseHead head).map fun q => { q with buf } := by
  unfold parseHead
  cases parseResponse head with
  | none => rfl
  | some st =>
      simp only
      split
      · rfl
      · split
        · rfl
        · cases parseU64 (httpHeader st.headers (str "Content-Length")) with
          | none => rfl
          | some len =>
              simp only
              split <;> rfl

/-- A parsed head is done, and a length it gives is within the limit. -/
theorem bounded_of_parseHead {maxBody : Nat} {q : HttpParser} {head : Bytes}
    (parsed : (fresh maxBody).parseHead head = .ok q) :
    q.headDone = true ∧ q.contentLength ≤ q.maxBody := by
  obtain ⟨st, rfl | rfl | ⟨len, fits, rfl⟩⟩ := parseHead_eq_ok parsed
  · exact ⟨rfl, Nat.zero_le _⟩
  · exact ⟨rfl, Nat.zero_le _⟩
  · exact ⟨rfl, fits⟩

section Head

variable {maxBody : Nat} {buffered : Bytes}

/-- The call that brings the blank line, and those after it. -/
theorem reading_of_headEnd {piece head rest : Bytes} {pieces : List Bytes} (nonempty : piece ≠ [])
    (ended : headEnd (buffered ++ piece) = some (head, rest)) :
    reading (((fresh maxBody).push buffered).feedAll (piece :: pieces)) =
      readMessage maxBody head (rest ++ pieces.flatten) := by
  have fed : ((fresh maxBody).push buffered).feed piece =
      enterBody { fresh maxBody with buf := buffered ++ piece } head rest := by
    rw [feed, if_neg nonempty]
    simp only [push, fresh, List.nil_append, ended]
    rfl
  rw [feedAll, fed, readMessage, enterBody, enterBody, parseHead_buf]
  cases parsed : (fresh maxBody).parseHead head with
  | error stop => rfl
  | ok q =>
      obtain ⟨headDone, bounded⟩ := bounded_of_parseHead parsed
      simp only [Except.map]
      cases outcome : feedBody { q with buf := rest } with
      | mk last stop =>
          cases stop with
          | some stop => exact (reading_push_of_stop (by exact bounded) outcome _).symm
          | none =>
              exact reading_feedBody pieces (by exact headDone) (by exact bounded) outcome

/-- A call that does not bring the blank line, and does not fill the buffer. -/
theorem feed_of_waiting {piece : Bytes} (nonempty : piece ≠ [])
    (waiting : headEnd (buffered ++ piece) = none) :
    ((fresh maxBody).push buffered).feed piece =
      if maxHeadBytes < (buffered ++ piece).length then
        ((fresh maxBody).push (buffered ++ piece), some (.refused (.of .eNetOverflow)))
      else ((fresh maxBody).push (buffered ++ piece), none) := by
  rw [feed, if_neg nonempty]
  simp only [push, fresh, List.nil_append, waiting]
  rfl

/-- What calls can show: nothing, when they run into a limit; no head; or the response with its
head ended at the first moment a blank line was there. -/
inductive Shown (maxBody : Nat) (stream : Bytes) : Option Reading → Prop
  | capped : Shown maxBody stream none
  | waiting (noHead : headEnd stream = none) : Shown maxBody stream (reading (fresh maxBody, none))
  | ended {front back head rest : Bytes} (cut : stream = front ++ back)
      (atEnd : headEnd front = some (head, rest)) :
      Shown maxBody stream (readMessage maxBody head (rest ++ back))

theorem shown_feedAll : ∀ (pieces : List Bytes) {buffered : Bytes},
    (∀ piece ∈ pieces, piece ≠ []) → headEnd buffered = none →
      Shown maxBody (buffered ++ pieces.flatten)
        (reading (((fresh maxBody).push buffered).feedAll pieces)) := by
  intro pieces
  induction pieces with
  | nil =>
      intro buffered _ waiting
      exact .waiting (by simpa using waiting)
  | cons piece pieces inductionHypothesis =>
      intro buffered nonempty _
      cases ended : headEnd (buffered ++ piece) with
      | some parts =>
          rw [reading_of_headEnd (nonempty piece List.mem_cons_self) ended]
          exact .ended (by simp) ended
      | none =>
          have fed : ((fresh maxBody).push buffered).feed piece = _ :=
            feed_of_waiting (nonempty piece List.mem_cons_self) ended
          rw [feedAll, fed]
          by_cases tooMuch : maxHeadBytes < (buffered ++ piece).length
          · rw [if_pos tooMuch]
            simp only [reading_overflow]
            exact .capped
          · rw [if_neg tooMuch, List.flatten_cons, ← List.append_assoc]
            exact inductionHypothesis
              (fun each member => nonempty each (List.mem_cons_of_mem _ member)) ended

end Head

/-- Both blank lines have been found, and the bare one ends first: then it also begins first. -/
theorem bareBlank_lt {s : Bytes} {i j : Nat} (bare : indexOf [lineFeed, lineFeed] s = some i)
    (blank : indexOf (crlf ++ crlf) s = some j) (endsFirst : i + 2 < j + 4) : i < j := by
  have byteAt {needle : Bytes} {k : Nat} (found : indexOf needle s = some k) (n : Nat)
      (inside : n < needle.length) : s[k + n]? = needle[n]? := by
    obtain ⟨after, same⟩ := indexOf_eq_some found
    rw [← List.getElem?_drop, ← same, List.getElem?_append_left inside]
  by_contra notBefore
  obtain atStart | inside : i = j ∨ i = j + 1 := by omega
  · have first := byteAt bare 0 (by decide)
    have other := byteAt blank 0 (by decide)
    rw [atStart, other] at first
    exact absurd first (by decide)
  · have second := byteAt bare 1 (by decide)
    have other := byteAt blank 2 (by decide)
    rw [inside, show j + 1 + 1 = j + 2 from rfl, other] at second
    exact absurd second (by decide)

/-- Where the head of a response can be taken to end: at its first blank line, or at a bare one
before that. -/
theorem headEnd_part {front head rest : Bytes} (ended : headEnd front = some (head, rest))
    (back : Bytes) :
    (∃ j, indexOf (crlf ++ crlf) (front ++ back) = some j ∧ head = (front ++ back).take j ∧
      rest ++ back = (front ++ back).drop (j + 4)) ∨
    (∃ i, indexOf [lineFeed, lineFeed] (front ++ back) = some i ∧
      (∀ j, indexOf (crlf ++ crlf) (front ++ back) = some j → i < j) ∧
      head = (front ++ back).take i ∧ rest ++ back = (front ++ back).drop (i + 2)) := by
  unfold headEnd at ended
  cases blank : indexOf (crlf ++ crlf) front with
  | some j =>
      have fits : j + 4 ≤ front.length := indexOf_add_length_le (by decide) blank
      simp only [blank, Option.some.injEq, Prod.mk.injEq] at ended
      obtain ⟨rfl, rfl⟩ := ended
      refine .inl ⟨j, indexOf_append back blank, ?_, ?_⟩
      · rw [List.take_append_of_le_length (by omega)]
      · rw [List.drop_append_of_le_length fits]
  | none =>
      simp only [blank, Option.map_eq_some_iff, Prod.mk.injEq] at ended
      obtain ⟨i, bare, rfl, rfl⟩ := ended
      have fits : i + 2 ≤ front.length := indexOf_add_length_le (by decide) bare
      refine .inr ⟨i, indexOf_append back bare, fun j later => ?_, ?_, ?_⟩
      · refine bareBlank_lt (indexOf_append back bare) later (Nat.lt_of_not_le fun within => ?_)
        rw [indexOf_of_append later (Nat.le_trans within fits)] at blank
        cases blank
      · rw [List.take_append_of_le_length (by omega)]
      · rw [List.drop_append_of_le_length fits]

/-! ## Responses that are read in one way -/

/-- However the response is cut into calls, those that stay within the limits show the same. -/
def ReadOneWay (maxBody : Nat) (s : Bytes) : Prop :=
  ∀ first second : List Bytes, (∀ piece ∈ first, piece ≠ []) → (∀ piece ∈ second, piece ≠ []) →
    first.flatten = s → second.flatten = s →
      ∀ r r', reading ((fresh maxBody).feedAll first) = some r →
        reading ((fresh maxBody).feedAll second) = some r' → r = r'

/-- A bare blank line comes before the first blank line. -/
def BareBlankFirst (s : Bytes) (i j : Nat) : Prop :=
  indexOf [lineFeed, lineFeed] s = some i ∧ indexOf (crlf ++ crlf) s = some j ∧ i < j

/-- What calls within the limits show, by where the head ends. -/
inductive Possible (maxBody : Nat) (s : Bytes) : Option Reading → Prop
  | noHead (bare : indexOf [lineFeed, lineFeed] s = none) (blank : indexOf (crlf ++ crlf) s = none) :
      Possible maxBody s (reading (fresh maxBody, none))
  | blank {j : Nat} (found : indexOf (crlf ++ crlf) s = some j) :
      Possible maxBody s (readMessage maxBody (s.take j) (s.drop (j + 4)))
  | bareBlank {i : Nat} (found : indexOf [lineFeed, lineFeed] s = some i)
      (before : ∀ j, indexOf (crlf ++ crlf) s = some j → i < j) :
      Possible maxBody s (readMessage maxBody (s.take i) (s.drop (i + 2)))

theorem headEnd_eq_none {s : Bytes} (noHead : headEnd s = none) :
    indexOf [lineFeed, lineFeed] s = none ∧ indexOf (crlf ++ crlf) s = none := by
  unfold headEnd at noHead
  cases blank : indexOf (crlf ++ crlf) s with
  | some j => simp [blank] at noHead
  | none => exact ⟨by simpa [blank] using noHead, rfl⟩

theorem Shown.possible {maxBody : Nat} {s : Bytes} {outcome : Option Reading}
    (shown : Shown maxBody s outcome) : outcome = none ∨ Possible maxBody s outcome := by
  cases shown with
  | capped => exact .inl rfl
  | waiting noHead =>
      obtain ⟨bare, blank⟩ := headEnd_eq_none noHead
      exact .inr (.noHead bare blank)
  | @ended front back head rest cut atEnd =>
      subst cut
      obtain ⟨j, found, isHead, isBody⟩ | ⟨i, found, before, isHead, isBody⟩ :=
        headEnd_part atEnd back
      · rw [isHead, isBody]
        exact .inr (.blank found)
      · rw [isHead, isBody]
        exact .inr (.bareBlank found before)

theorem possible_feedAll (maxBody : Nat) {pieces : List Bytes}
    (nonempty : ∀ piece ∈ pieces, piece ≠ []) :
    reading ((fresh maxBody).feedAll pieces) = none ∨
      Possible maxBody pieces.flatten (reading ((fresh maxBody).feedAll pieces)) := by
  have shown : Shown maxBody ([] ++ pieces.flatten)
      (reading (((fresh maxBody).push []).feedAll pieces)) := shown_feedAll pieces nonempty rfl
  exact shown.possible

/-- Where no bare blank line comes first, or none that matters, there is one possibility. -/
theorem Possible.unique {maxBody : Nat} {s : Bytes} {first second : Option Reading}
    (agree : ∀ i j, BareBlankFirst s i j → ∀ r r',
      readMessage maxBody (s.take i) (s.drop (i + 2)) = some r →
        readMessage maxBody (s.take j) (s.drop (j + 4)) = some r' → r = r')
    (one : Possible maxBody s first) (other : Possible maxBody s second) {r r' : Reading}
    (isFirst : first = some r) (isSecond : second = some r') : r = r' := by
  have determined {i j : Nat} (this : some i = some j) : i = j := Option.some.inj this
  cases one with
  | noHead bare blank =>
      cases other with
      | noHead => exact Option.some.inj (isFirst.symm.trans isSecond)
      | blank found => rw [blank] at found; cases found
      | bareBlank found => rw [bare] at found; cases found
  | blank found =>
      cases other with
      | noHead bare blank => rw [blank] at found; cases found
      | blank again =>
          rw [determined (found.symm.trans again)] at isFirst
          exact Option.some.inj (isFirst.symm.trans isSecond)
      | bareBlank bare before =>
          exact (agree _ _ ⟨bare, found, before _ found⟩ _ _ isSecond isFirst).symm
  | bareBlank found before =>
      cases other with
      | noHead bare blank => rw [bare] at found; cases found
      | blank again => exact agree _ _ ⟨found, again, before _ again⟩ _ _ isFirst isSecond
      | bareBlank again =>
          rw [determined (found.symm.trans again)] at isFirst
          exact Option.some.inj (isFirst.symm.trans isSecond)

section Cuts

variable {maxBody : Nat} {s : Bytes} {i j : Nat}

/-- A response read with its head in the first call. -/
theorem reading_of_first {piece head rest : Bytes} {pieces : List Bytes} (nonempty : piece ≠ [])
    (ended : headEnd piece = some (head, rest)) :
    reading ((fresh maxBody).feedAll (piece :: pieces)) =
      readMessage maxBody head (rest ++ pieces.flatten) := by
  have read : reading (((fresh maxBody).push []).feedAll (piece :: pieces)) = _ :=
    reading_of_headEnd nonempty ended
  rw [push_nil] at read
  exact read

/-- The whole response in one call. -/
theorem reading_whole (blank : indexOf (crlf ++ crlf) s = some j) :
    reading ((fresh maxBody).feedAll [s]) = readMessage maxBody (s.take j) (s.drop (j + 4)) := by
  have nonempty : s ≠ [] := by
    rintro rfl
    cases blank
  have ended : headEnd s = some (s.take j, s.drop (j + 4)) := by
    simp [headEnd, blank]
  rw [reading_of_first nonempty ended, List.flatten_nil, List.append_nil]

theorem nonempty_cut (first : BareBlankFirst s i j) :
    ∀ each ∈ [s.take (i + 2), s.drop (i + 2)], each ≠ [] := by
  obtain ⟨bare, blank, before⟩ := first
  have blankFits : j + 4 ≤ s.length := indexOf_add_length_le (by decide) blank
  simp only [List.mem_cons, List.not_mem_nil, or_false, forall_eq_or_imp, forall_eq, ne_eq,
    List.take_eq_nil_iff, List.drop_eq_nil_iff, not_or, not_le]
  refine ⟨⟨by omega, ?_⟩, by omega⟩
  rintro rfl
  cases bare

/-- The response in two calls, the first up to the bare blank line. -/
theorem reading_cut (first : BareBlankFirst s i j) :
    reading ((fresh maxBody).feedAll [s.take (i + 2), s.drop (i + 2)]) =
      readMessage maxBody (s.take i) (s.drop (i + 2)) := by
  obtain ⟨bare, blank, before⟩ := first
  have bareFits : i + 2 ≤ s.length := indexOf_add_length_le (by decide) bare
  have blankFits : j + 4 ≤ s.length := indexOf_add_length_le (by decide) blank
  have length : (s.take (i + 2)).length = i + 2 := List.length_take_of_le bareFits
  have whole : s = s.take (i + 2) ++ s.drop (i + 2) := (List.take_append_drop _ _).symm
  have stillBare : indexOf [lineFeed, lineFeed] (s.take (i + 2)) = some i := by
    rw [whole] at bare
    exact indexOf_of_append bare (by simp [length])
  have noBlank : indexOf (crlf ++ crlf) (s.take (i + 2)) = none := by
    refine Option.eq_none_iff_forall_ne_some.mpr fun k found => ?_
    have fits : k + 4 ≤ (s.take (i + 2)).length := indexOf_add_length_le (by decide) found
    have again := indexOf_append (s.drop (i + 2)) found
    rw [← whole, blank] at again
    have same := Option.some.inj again
    omega
  have ended : headEnd (s.take (i + 2)) = some (s.take i, []) := by
    simp [headEnd, noBlank, stillBare, List.take_take]
  have cut := nonempty_cut ⟨bare, blank, before⟩
  rw [reading_of_first (cut _ List.mem_cons_self) ended]
  simp

end Cuts

/-- **A response is read in one way, however it is cut into calls, exactly when no bare blank line
comes before its first blank line**, or the two ends of the head make no difference to it. -/
theorem readOneWay_iff (maxBody : Nat) (s : Bytes) :
    ReadOneWay maxBody s ↔
      ∀ i j, BareBlankFirst s i j → ∀ r r',
        readMessage maxBody (s.take i) (s.drop (i + 2)) = some r →
          readMessage maxBody (s.take j) (s.drop (j + 4)) = some r' → r = r' := by
  constructor
  · intro oneWay i j first r r' bare blank
    have nonempty : s ≠ [] := by
      rintro rfl
      cases first.1
    refine oneWay [s.take (i + 2), s.drop (i + 2)] [s] (nonempty_cut first) (by simpa using nonempty)
      (by simp) (by simp) r r' ?_ ?_
    · rw [reading_cut first]
      exact bare
    · rw [reading_whole first.2.1]
      exact blank
  · intro agree first second nonempty alsoNonempty isFirst isSecond r r' shown alsoShown
    have one := (possible_feedAll maxBody nonempty).resolve_left (by simp [shown])
    have other := (possible_feedAll maxBody alsoNonempty).resolve_left
      (by simp [alsoShown])
    rw [isFirst] at one
    rw [isSecond] at other
    exact Possible.unique agree one other shown alsoShown

/-- A response with bare line ends and a blank line in its body. -/
def bareResponse : Bytes := str "HTTP/1.1 200 OK\nX: y\n\nbody\r\n\r\nmore"

/-- In one call the body begins at the blank line; cut behind the bare one it begins there. -/
theorem bareResponse_readTwoWays : ¬ ReadOneWay maxBodyBytes bareResponse := by
  have sees {pieces : List Bytes} {body : Bytes}
      (seen : ((reading ((fresh maxBodyBytes).feedAll pieces)).any fun r => r.body = body) = true) :
      ∃ r, reading ((fresh maxBodyBytes).feedAll pieces) = some r ∧ r.body = body := by
    obtain ⟨r, shown, same⟩ := (Option.any_eq_true _ _).mp seen
    exact ⟨r, shown, of_decide_eq_true same⟩
  intro oneWay
  obtain ⟨r, shown, body⟩ : ∃ r, reading ((fresh maxBodyBytes).feedAll [bareResponse]) = some r ∧
      r.body = str "more" := sees (by decide +kernel)
  obtain ⟨r', alsoShown, otherBody⟩ :
      ∃ r, reading ((fresh maxBodyBytes).feedAll [bareResponse.take 22, bareResponse.drop 22]) =
        some r ∧ r.body = str "body\r\n\r\nmore" := sees (by decide +kernel)
  have same := oneWay _ _ (by decide +kernel) (by decide +kernel) (by decide +kernel)
    (by decide +kernel) r r' shown alsoShown
  rw [same, otherBody] at body
  exact absurd body (by decide +kernel)

end HttpParser

end Opencodepp.Net
