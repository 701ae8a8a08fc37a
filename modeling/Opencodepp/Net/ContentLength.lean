import Opencodepp.Net.HttpSplit

/-!
# Bodies with a length

A response whose head gives a length is fed in pieces, and its body is taken out in pieces, in any
order.  What is delivered is to be the first bytes behind the head, as many as the length says.
The parser keeps the length in 64 bits and lets zero stand for no length at all, so that a length
of zero, and one too large for 64 bits, are not what they say (`useAll_delivers_iff`).
-/

set_option autoImplicit false

namespace Opencodepp.Net

open Opencodepp.Core
open Opencodepp.Library

namespace HttpParser

/-! ## Taking the body out -/

/-- `take`: at most `n` bytes of the body. -/
def take (p : HttpParser) (n : Nat) : Bytes × HttpParser :=
  (p.bodyBuf.take n, { p with bodyBuf := p.bodyBuf.drop n })

/-- What a caller does with the parser. -/
inductive Use
  | feed (piece : Bytes)
  | take (n : Nat)
  deriving Repr, DecidableEq

/-- What is fed by it. -/
def Use.fed : Use → Bytes
  | .feed piece => piece
  | .take _ => []

/-- The parser and what has been taken out of it. -/
abbrev Taking := HttpParser × Bytes

def use (s : Taking) : Use → Taking × Option ParseStop
  | .feed piece => (((s.1.feed piece).1, s.2), (s.1.feed piece).2)
  | .take n => (((s.1.take n).2, s.2 ++ (s.1.take n).1), none)

/-- One use after the other, up to the first that fails. -/
def useAll (s : Taking) : List Use → Taking × Option ParseStop
  | [] => (s, none)
  | u :: rest =>
      match use s u with
      | (after, some stop) => (after, some stop)
      | (after, none) => useAll after rest

/-- The bytes that are fed. -/
def fedBy (uses : List Use) : Bytes := (uses.map Use.fed).flatten

/-- The number a digit string denotes. -/
def denoted (digits : Bytes) : Nat := digits.foldl (fun v c => v * 10 + (c.toNat - 0x30)) 0

/-- What is delivered, or can be, are the first `n` bytes received, and the body is done when all
of them are there. -/
def Delivers (n : Nat) (received : Bytes) (outcome : Taking × Option ParseStop) : Prop :=
  outcome.2 = none ∧ outcome.1.2 ++ outcome.1.1.bodyBuf = received.take n ∧
    (outcome.1.1.bodyDone = true ↔ n ≤ received.length)

/-- The head was not accepted. -/
def Rejected (outcome : Taking × Option ParseStop) : Prop :=
  outcome.2 ≠ none ∧ outcome.1.1.headDone = false

/-! ## The length of the head -/

theorem parseU64_digits {digits : Bytes} (nonempty : digits ≠ [])
    (isDigits : digits.all isDigit = true) :
    parseU64 digits = some (denoted digits % wordValues) := by
  have wraps (start reached : Nat) (same : start = reached % wordValues) :
      digits.foldl (fun v c => (v * 10 + (c.toNat - 0x30)) % wordValues) start =
        digits.foldl (fun v c => v * 10 + (c.toNat - 0x30)) reached % wordValues := by
    clear nonempty isDigits
    induction digits generalizing start reached with
    | nil => exact same
    | cons c rest inductionHypothesis =>
        rw [List.foldl_cons, List.foldl_cons]
        refine inductionHypothesis _ _ ?_
        rw [same, Nat.add_mod, Nat.mod_mul_mod, ← Nat.add_mod]
  rw [parseU64, if_neg nonempty, if_pos isDigits, wraps 0 0 rfl]
  rfl

/-- The head of a body with a length. -/
structure GivesLength (head : Bytes) (st : HttpResponse) (digits : Bytes) : Prop where
  parsed : parseResponse head = some st
  plain : ciEquals (httpHeader st.headers (str "Transfer-Encoding")) (str "chunked") = false
  given : httpHeader st.headers (str "Content-Length") = digits
  nonempty : digits ≠ []
  isDigits : digits.all isDigit = true

theorem parseHead_length {head digits : Bytes} {st : HttpResponse}
    (gives : GivesLength head st digits) (p : HttpParser) :
    p.parseHead head =
      if p.maxBody < denoted digits % wordValues then .error (.refused (.of .eNetOverflow))
      else .ok { p with
        head := st, headDone := true
        contentLength := denoted digits % wordValues, lengthFramed := true } := by
  unfold parseHead
  rw [gives.parsed]
  dsimp only
  rw [gives.plain, if_neg Bool.false_ne_true, gives.given, if_neg gives.nonempty,
    parseU64_digits gives.nonempty gives.isDigits]

/-! ## The body -/

/-- The parser within a body of `n` bytes, of which those received have been delivered or can be.
A length of zero counts as none, and lets everything through. -/
structure Within (n : Nat) (received : Bytes) (s : Taking) : Prop where
  headDone : s.1.headDone = true
  plain : s.1.chunked = false
  length : s.1.contentLength = n
  framed : s.1.lengthFramed = true
  fits : n ≤ s.1.maxBody
  got : s.1.bodyGot = if n = 0 then received.length else min n received.length
  body : s.2 ++ s.1.bodyBuf = if n = 0 then received else received.take n
  rest : n = 0 ∨ received.length < n → s.1.buf = []

section Body

variable {n : Nat} {received : Bytes} {p : HttpParser} {taken : Bytes}

theorem Within.take (within : Within n received (p, taken)) (k : Nat) :
    Within n received ((p.take k).2, taken ++ (p.take k).1) where
  headDone := within.headDone
  plain := within.plain
  length := within.length
  framed := within.framed
  fits := within.fits
  got := within.got
  body := by
    change taken ++ p.bodyBuf.take k ++ p.bodyBuf.drop k = _
    rw [List.append_assoc, List.take_append_drop]
    exact within.body
  rest := within.rest

/-- The body loop over what has come, when a length says how much it takes. -/
theorem Within.body_length (within : Within n received (p, taken)) (positive : 0 < n)
    (piece : Bytes) : ∃ q, (p.push piece).feedBody = (q, none) ∧
      Within n (received ++ piece) (q, taken) := by
  obtain ⟨headDone, plain, length, framed, fits, got, body, rest⟩ := within
  dsimp only at headDone plain length framed fits got body rest
  rw [if_neg (Nat.pos_iff_ne_zero.mp positive)] at got body
  have pushedLength : (p.push piece).contentLength = n := length
  rw [feedBody_of_plain (p := p.push piece) plain, takeBody_length (p := p.push piece) _
    (by rw [pushedLength]; exact positive) (by rw [pushedLength]; exact fits)]
  by_cases full : n ≤ received.length
  · have all : (p.push piece).contentLength ≤ (p.push piece).bodyGot := by
      change p.contentLength ≤ p.bodyGot
      omega
    rw [if_pos all]
    refine ⟨_, rfl, headDone, plain, length, framed, fits, ?_, ?_, fun _ => rfl⟩
    · rw [if_neg (Nat.pos_iff_ne_zero.mp positive), List.length_append]
      change p.bodyGot = _
      omega
    · rw [if_neg (Nat.pos_iff_ne_zero.mp positive), List.take_append_of_le_length full]
      exact body
  · have short : received.length < n := Nat.lt_of_not_le full
    have gotAll : p.bodyGot = received.length := by omega
    have noBuf : p.buf = [] := rest (.inr short)
    have unfinished : ¬(p.push piece).contentLength ≤ (p.push piece).bodyGot := by
      change ¬p.contentLength ≤ p.bodyGot
      omega
    have room : (p.push piece).contentLength - (p.push piece).bodyGot = n - p.bodyGot := by
      rw [pushedLength]
      rfl
    have pushedBuf : (p.push piece).buf = piece := by
      change p.buf ++ piece = piece
      rw [noBuf, List.nil_append]
    rw [if_neg unfinished, pushedBuf, room]
    refine ⟨_, rfl, headDone, plain, length, framed, fits, ?_, ?_, ?_⟩
    · rw [if_neg (Nat.pos_iff_ne_zero.mp positive), List.length_append]
      change p.bodyGot + min (n - p.bodyGot) piece.length = _
      omega
    · rw [if_neg (Nat.pos_iff_ne_zero.mp positive), List.take_append,
        List.take_of_length_le (Nat.le_of_lt short)]
      rw [List.take_of_length_le (Nat.le_of_lt short)] at body
      change taken ++ (p.bodyBuf ++ (p.push piece).buf.take
        (min (n - p.bodyGot) piece.length)) = _
      rw [pushedBuf, ← List.append_assoc, body, gotAll, ← List.take_eq_take_min]
    · intro unfinished
      rw [List.length_append] at unfinished
      change (p.push piece).buf.drop (min (n - p.bodyGot) piece.length) = []
      rw [pushedBuf, List.drop_eq_nil_iff]
      omega

/-- The body loop over what has come, when the length is zero: it takes everything, or the body
grows too large. -/
theorem Within.body_zero (within : Within 0 received (p, taken)) (piece : Bytes) :
    (received.length + piece.length ≤ p.maxBody → ∃ q, (p.push piece).feedBody = (q, none) ∧
        Within 0 (received ++ piece) (q, taken)) ∧
      (p.maxBody < received.length + piece.length →
        ∃ q, (p.push piece).feedBody = (q, some (.refused (.of .eNetOverflow)))) := by
  obtain ⟨headDone, plain, length, framed, fits, got, body, rest⟩ := within
  dsimp only at headDone plain length framed fits got body rest
  rw [if_pos rfl] at got body
  have noBuf : p.buf = [] := rest (.inl rfl)
  have pushedBuf : (p.push piece).buf = piece := by
    change p.buf ++ piece = piece
    rw [noBuf, List.nil_append]
  have loop := takeBody_all _ (p := p.push piece) length (Nat.lt_succ_self _)
  rw [← feedBody_of_plain (p := p.push piece) plain, pushedBuf] at loop
  change (p.bodyGot + piece.length ≤ p.maxBody → _) ∧ (p.maxBody < p.bodyGot + piece.length → _)
    at loop
  rw [got] at loop
  refine ⟨fun roomy => ⟨_, loop.1 roomy, headDone, plain, length, framed, fits, ?_, ?_, ?_⟩,
    loop.2⟩
  · change p.bodyGot + piece.length = _
    rw [if_pos rfl, got, List.length_append]
  · change taken ++ (p.bodyBuf ++ (p.push piece).buf.take piece.length) = _
    rw [if_pos rfl, pushedBuf, List.take_length, ← List.append_assoc, body]
  · intro _
    change (p.push piece).buf.drop piece.length = []
    rw [pushedBuf, List.drop_length]

theorem feed_of_headDone (headDone : p.headDone = true) {piece : Bytes} (nonempty : piece ≠ []) :
    p.feed piece = (p.push piece).feedBody := by
  rw [feed, if_neg nonempty]
  exact if_pos headDone

/-- What is within the body after more uses, when the length is not zero. -/
theorem Within.useAll_length (positive : 0 < n) (uses : List Use) :
    ∀ {received : Bytes} {s : Taking}, Within n received s →
      ∃ after, useAll s uses = (after, none) ∧ Within n (received ++ fedBy uses) after := by
  induction uses with
  | nil =>
      intro received s within
      exact ⟨s, rfl, by simpa [fedBy] using within⟩
  | cons u rest inductionHypothesis =>
      rintro received ⟨p, taken⟩ within
      obtain ⟨after, used, still⟩ : ∃ after, use (p, taken) u = (after, none) ∧
          Within n (received ++ u.fed) after := by
        cases u with
        | take k => exact ⟨_, rfl, by simpa [Use.fed] using within.take k⟩
        | feed piece =>
            by_cases empty : piece = []
            · subst empty
              refine ⟨(p, taken), rfl, ?_⟩
              rw [Use.fed, List.append_nil]
              exact within
            · obtain ⟨q, fed, still⟩ := within.body_length positive piece
              rw [← feed_of_headDone within.headDone empty] at fed
              exact ⟨(q, taken), by rw [use, fed], still⟩
      obtain ⟨last, later, stillLast⟩ := inductionHypothesis still
      refine ⟨last, by rw [useAll, used]; exact later, ?_⟩
      rw [List.append_assoc] at stillLast
      exact stillLast

/-- What is within the body after more uses, when the length is zero. -/
theorem Within.useAll_zero (uses : List Use) :
    ∀ {received : Bytes} {s : Taking}, Within 0 received s →
      ((useAll s uses).2 = none → Within 0 (received ++ fedBy uses) (useAll s uses).1) ∧
        (fedBy uses = [] → (useAll s uses).2 = none) := by
  induction uses with
  | nil =>
      intro received s within
      refine ⟨fun _ => ?_, fun _ => rfl⟩
      change Within 0 (received ++ []) s
      rw [List.append_nil]
      exact within
  | cons u rest inductionHypothesis =>
      rintro received ⟨p, taken⟩ within
      have silent (quiet : u.fed = []) : ∃ after, use (p, taken) u = (after, none) ∧
          Within 0 received after := by
        cases u with
        | take k => exact ⟨_, rfl, within.take k⟩
        | feed piece =>
            have empty : piece = [] := quiet
            subst empty
            exact ⟨_, rfl, within⟩
      by_cases quiet : u.fed = []
      · obtain ⟨after, used, still⟩ := silent quiet
        have sameFed : fedBy (u :: rest) = fedBy rest := by
          simp [fedBy, quiet]
        rw [useAll, used, sameFed]
        exact inductionHypothesis still
      · refine ⟨fun stopped => ?_, fun nothing => ?_⟩
        · cases u with
          | take k => exact absurd rfl quiet
          | feed piece =>
              have nonempty : piece ≠ [] := quiet
              have loop := within.body_zero piece
              rw [← feed_of_headDone within.headDone nonempty] at loop
              by_cases roomy : received.length + piece.length ≤ p.maxBody
              · obtain ⟨q, fed, still⟩ := loop.1 roomy
                have used : use (p, taken) (.feed piece) = ((q, taken), none) := by
                  rw [use, fed]
                rw [useAll, used] at stopped ⊢
                have later := (inductionHypothesis still).1 stopped
                rw [List.append_assoc] at later
                exact later
              · obtain ⟨q, fed⟩ := loop.2 (Nat.lt_of_not_le roomy)
                have used : use (p, taken) (.feed piece) =
                    ((q, taken), some (.refused (.of .eNetOverflow))) := by rw [use, fed]
                rw [useAll, used] at stopped
                exact nomatch stopped
        · have both : u.fed = [] ∧ fedBy rest = [] := by
            simpa [fedBy] using nothing
          exact absurd both.1 quiet

end Body

/-! ## Up to the head -/

section Head

variable {maxBody : Nat}

/-- Waiting for the end of the head, or within a bounded body. -/
def Underway (maxBody : Nat) (s : Taking) : Prop :=
  (∃ buffered, s = ((fresh maxBody).push buffered, [])) ∨
    (s.1.headDone = true ∧ s.1.contentLength ≤ s.1.maxBody)

theorem feed_of_headEnd {buffered piece head rest : Bytes} (nonempty : piece ≠ [])
    (ended : headEnd (buffered ++ piece) = some (head, rest)) :
    ((fresh maxBody).push buffered).feed piece =
      ((fresh maxBody).push (buffered ++ piece)).enterBody head rest := by
  rw [feed, if_neg nonempty]
  simp only [push, fresh, List.nil_append, ended]
  rfl

theorem underway_of_feedBody {p q : HttpParser} (headDone : p.headDone = true)
    (bounded : p.contentLength ≤ p.maxBody) (waited : p.feedBody = (q, none)) (taken : Bytes) :
    Underway maxBody (q, taken) := by
  have framed := framed_feedBody bounded waited
  refine .inr ⟨framed.headDone.trans headDone, ?_⟩
  change q.contentLength ≤ q.maxBody
  rw [framed.contentLength, framed.maxBody]
  exact bounded

theorem underway_use {s after : Taking} {u : Use} (underway : Underway maxBody s)
    (used : use s u = (after, none)) : Underway maxBody after := by
  cases u with
  | take n =>
      obtain rfl := (Prod.mk.inj used).1
      obtain ⟨buffered, rfl⟩ | inBody := underway
      · exact .inl ⟨buffered, by simp [take, push, fresh]⟩
      · exact .inr inBody
  | feed piece =>
      obtain ⟨first, stopped⟩ := Prod.mk.inj used
      by_cases empty : piece = []
      · subst empty
        rw [← first]
        exact underway
      · obtain ⟨buffered, rfl⟩ | ⟨headDone, bounded⟩ := underway
        · cases ended : headEnd (buffered ++ piece) with
          | none =>
              rw [feed_of_waiting empty ended] at first stopped
              split at stopped
              · cases stopped
              · next within =>
                  rw [if_neg within] at first
                  exact .inl ⟨buffered ++ piece, first.symm⟩
          | some parts =>
              obtain ⟨head, rest⟩ := parts
              rw [feed_of_headEnd empty ended] at first stopped
              unfold enterBody at first stopped
              cases parsed : ((fresh maxBody).push (buffered ++ piece)).parseHead head with
              | error stop =>
                  rw [parsed] at stopped
                  cases stopped
              | ok q =>
                  rw [parsed] at first stopped
                  dsimp only at first stopped
                  rw [← first]
                  have waited : feedBody { q with buf := rest } =
                      ((feedBody { q with buf := rest }).1, none) := by rw [← stopped]
                  obtain ⟨st, rfl | rfl | ⟨len, fits, rfl⟩⟩ := parseHead_eq_ok parsed
                  · exact underway_of_feedBody rfl (Nat.zero_le _) waited []
                  · exact underway_of_feedBody rfl (Nat.zero_le _) waited []
                  · exact underway_of_feedBody rfl fits waited []
        · rw [feed_of_headDone headDone empty] at first stopped
          have waited : (s.1.push piece).feedBody = ((s.1.push piece).feedBody.1, none) := by
            rw [← stopped]
          rw [← first]
          exact underway_of_feedBody (by exact headDone) (by exact bounded) waited s.2

theorem underway_useAll (uses : List Use) : ∀ {s after : Taking}, Underway maxBody s →
    useAll s uses = (after, none) → Underway maxBody after := by
  induction uses with
  | nil =>
      intro s after underway used
      obtain rfl := (Prod.mk.inj used).1
      exact underway
  | cons u rest inductionHypothesis =>
      intro s after underway used
      rw [useAll] at used
      cases step : use s u with
      | mk next stop =>
          rw [step] at used
          cases stop with
          | some stop => exact nomatch used
          | none => exact inductionHypothesis (underway_use underway step) used

theorem useAll_append (first second : List Use) : ∀ {s after : Taking},
    useAll s first = (after, none) → useAll s (first ++ second) = useAll after second := by
  induction first with
  | nil =>
      intro s after used
      obtain rfl := (Prod.mk.inj used).1
      rfl
  | cons u rest inductionHypothesis =>
      intro s after used
      rw [List.cons_append, useAll]
      rw [useAll] at used
      cases step : use s u with
      | mk next stop =>
          rw [step] at used
          cases stop with
          | some stop => exact nomatch used
          | none => exact inductionHypothesis used

/-! ## What is delivered -/

/-- The parser when a head with a length has been read. -/
def atBody (maxBody : Nat) (st : HttpResponse) (n : Nat) : HttpParser :=
  { fresh maxBody with head := st, headDone := true, contentLength := n, lengthFramed := true }

theorem within_atBody {st : HttpResponse} {n : Nat} (fits : n ≤ maxBody) :
    Within n [] (atBody maxBody st n, []) where
  headDone := rfl
  plain := rfl
  length := rfl
  framed := rfl
  fits := fits
  got := by
    change 0 = _
    split <;> simp
  body := by
    change [] = _
    split <;> simp
  rest := fun _ => rfl

theorem Within.delivers {n : Nat} {received : Bytes} {s : Taking} (within : Within n received s)
    (sound : 0 < n ∨ received = []) : Delivers n received (s, none) := by
  refine ⟨rfl, ?_, ?_⟩
  · refine within.body.trans ?_
    split
    · next zero =>
        obtain positive | nothing := sound
        · omega
        · rw [nothing, List.take_nil]
    · rfl
  · have got := within.got
    change (s.1.headDone && if s.1.chunked then s.1.chunkedDone
      else s.1.lengthFramed && decide (s.1.contentLength ≤ s.1.bodyGot)) = true ↔ _
    rw [within.headDone, within.plain, within.framed, within.length]
    simp only [Bool.true_and, if_neg Bool.false_ne_true, decide_eq_true_eq]
    split at got <;> omega

/-- Of a body delivered as one of no bytes, with everything still there, nothing was received. -/
theorem received_nil_of_delivers {received : Bytes} {outcome : Taking × Option ParseStop}
    (delivers : Delivers 0 received outcome)
    (body : outcome.1.2 ++ outcome.1.1.bodyBuf = if 0 = 0 then received else received.take 0) :
    received = [] := by
  rw [if_pos rfl, delivers.2.1, List.take_zero] at body
  exact body.symm

/-- A body without chunks leaves the head done, whether it is refused or not. -/
theorem takeBody_headDone (fuel : Nat) : ∀ p : HttpParser,
    (takeBody fuel p).1.headDone = p.headDone ∧ (takeBody fuel p).1.chunked = p.chunked := by
  induction fuel with
  | zero => exact fun _ => ⟨rfl, rfl⟩
  | succ fuel inductionHypothesis =>
      intro p
      unfold takeBody
      split
      · exact ⟨rfl, rfl⟩
      · dsimp only
        generalize min (if 0 < p.contentLength then p.contentLength - p.bodyGot else maxBodyBytes)
          p.buf.length = taken
        split
        · exact ⟨rfl, rfl⟩
        · split
          · exact ⟨rfl, rfl⟩
          · split
            · exact ⟨rfl, rfl⟩
            · exact inductionHypothesis (p.advance taken)

theorem useAll_headDone (uses : List Use) : ∀ {s : Taking}, s.1.headDone = true →
    s.1.chunked = false → (useAll s uses).1.1.headDone = true := by
  induction uses with
  | nil => exact fun headDone _ => headDone
  | cons u rest inductionHypothesis =>
      intro s headDone plain
      have kept : (use s u).1.1.headDone = true ∧ (use s u).1.1.chunked = false := by
        cases u with
        | take n => exact ⟨headDone, plain⟩
        | feed piece =>
            by_cases empty : piece = []
            · subst empty
              exact ⟨headDone, plain⟩
            · change (s.1.feed piece).1.headDone = true ∧ (s.1.feed piece).1.chunked = false
              rw [feed_of_headDone headDone empty, feedBody_of_plain (by exact plain)]
              obtain ⟨still, stillPlain⟩ := takeBody_headDone ((s.1.push piece).buf.length + 1)
                (s.1.push piece)
              exact ⟨still.trans headDone, stillPlain.trans plain⟩
      rw [useAll]
      cases step : use s u with
      | mk next stop =>
          rw [step] at kept
          cases stop with
          | some stop => exact kept.1
          | none => exact inductionHypothesis kept.1 kept.2

/-- The call with the end of a head that is accepted. -/
theorem use_of_accepted {buffered piece head rest : Bytes} {st : HttpResponse}
    {digits : Bytes} (nonempty : piece ≠ [])
    (ended : headEnd (buffered ++ piece) = some (head, rest))
    (gives : GivesLength head st digits) (fits : denoted digits % wordValues ≤ maxBody) :
    use ((fresh maxBody).push buffered, []) (.feed piece) =
      ((((atBody maxBody st (denoted digits % wordValues)).push rest).feedBody.1, []),
        ((atBody maxBody st (denoted digits % wordValues)).push rest).feedBody.2) := by
  have accepted : ((fresh maxBody).push (buffered ++ piece)).parseHead head = .ok _ :=
    (parseHead_length gives _).trans (if_neg (Nat.not_lt.mpr fits))
  rw [use, feed_of_headEnd nonempty ended, enterBody, accepted]
  rfl

/-- The call with the end of a head that is not. -/
theorem use_of_refused {buffered piece head rest : Bytes} {st : HttpResponse}
    {digits : Bytes} (nonempty : piece ≠ [])
    (ended : headEnd (buffered ++ piece) = some (head, rest))
    (gives : GivesLength head st digits) (exceeds : maxBody < denoted digits % wordValues) :
    use ((fresh maxBody).push buffered, []) (.feed piece) =
      (((fresh maxBody).push (buffered ++ piece), []), some (.refused (.of .eNetOverflow))) := by
  have refused : ((fresh maxBody).push (buffered ++ piece)).parseHead head =
      .error (.refused (.of .eNetOverflow)) :=
    (parseHead_length gives _).trans (if_pos exceeds)
  rw [use, feed_of_headEnd nonempty ended, enterBody, refused]

/-- What follows an accepted head: the law of the length it is taken for, with the exception of
zero, and no rejection. -/
theorem useAll_atBody {st : HttpResponse} {n : Nat} {s : Taking} {u : Use} {rest : Bytes}
    (fits : n ≤ maxBody)
    (entered : use s u = ((((atBody maxBody st n).push rest).feedBody.1, []),
      ((atBody maxBody st n).push rest).feedBody.2)) (uses : List Use) :
    (Delivers n (rest ++ fedBy uses) (useAll s (u :: uses)) ↔
        (n = 0 → rest ++ fedBy uses = [])) ∧ ¬Rejected (useAll s (u :: uses)) := by
  have within : Within n [] (atBody maxBody st n, []) := within_atBody fits
  obtain rfl | positive := Nat.eq_zero_or_pos n
  · have loop := within.body_zero rest
    rw [List.length_nil, Nat.zero_add, List.nil_append] at loop
    have headDone := takeBody_headDone (((atBody maxBody st 0).push rest).buf.length + 1)
      ((atBody maxBody st 0).push rest)
    rw [← feedBody_of_plain (p := (atBody maxBody st 0).push rest) rfl] at headDone
    by_cases roomy : rest.length ≤ maxBody
    · obtain ⟨q, fed, inBody⟩ := loop.1 roomy
      rw [fed] at entered headDone
      rw [useAll, entered]
      dsimp only
      obtain ⟨all, silent⟩ := inBody.useAll_zero uses
      refine ⟨⟨fun law _ => ?_, fun nothing => ?_⟩, fun rejected => ?_⟩
      · exact (received_nil_of_delivers law (all law.1).body)
      · have none : (useAll (q, []) uses).2 = none :=
          silent (List.append_eq_nil_iff.mp (nothing rfl)).2
        have delivers := (all none).delivers (.inr (nothing rfl))
        rw [← none] at delivers
        exact delivers
      · have done := useAll_headDone uses (s := (q, [])) headDone.1 headDone.2
        exact absurd (done.symm.trans rejected.2) nofun
    · obtain ⟨q, fed⟩ := loop.2 (Nat.lt_of_not_le roomy)
      rw [fed] at entered headDone
      rw [useAll, entered]
      dsimp only
      refine ⟨⟨fun law => absurd law.1 nofun, fun nothing => ?_⟩, fun rejected => ?_⟩
      · have empty := (List.append_eq_nil_iff.mp (nothing rfl)).1
        rw [empty] at roomy
        exact absurd (Nat.zero_le _) roomy
      · exact absurd (headDone.1.symm.trans rejected.2) nofun
  · obtain ⟨q, fed, inBody⟩ := within.body_length positive rest
    obtain ⟨last, used, still⟩ := inBody.useAll_length positive uses
    rw [List.nil_append] at still
    rw [fed] at entered
    rw [useAll, entered]
    dsimp only
    rw [used]
    refine ⟨⟨fun _ zero => absurd zero (Nat.pos_iff_ne_zero.mp positive), fun _ => ?_⟩,
      fun rejected => rejected.1 rfl⟩
    exact still.delivers (.inl positive)

/-- **What is delivered are the first bytes of the body, as many as the length says, and a length
beyond 64 bits is rejected, exactly when a length of zero is followed by nothing, one within 64
bits is within the limit of the parser, and one beyond them exceeds that limit even modulo
2^64.** -/
theorem useAll_delivers_iff {before after : List Use} {p : HttpParser} {taken : Bytes}
    {piece head rest : Bytes} {st : HttpResponse} {digits : Bytes}
    (waited : useAll (fresh maxBody, []) before = ((p, taken), none))
    (noHead : p.headDone = false) (nonempty : piece ≠ [])
    (ended : headEnd (p.buf ++ piece) = some (head, rest)) (gives : GivesLength head st digits) :
    let outcome := useAll (fresh maxBody, []) (before ++ .feed piece :: after)
    let received := rest ++ fedBy after
    ((denoted digits < wordValues → Delivers (denoted digits) received outcome) ∧
        (wordValues ≤ denoted digits → Rejected outcome)) ↔
      (denoted digits < wordValues →
        denoted digits ≤ maxBody ∧ (denoted digits = 0 → received = [])) ∧
      (wordValues ≤ denoted digits → maxBody < denoted digits % wordValues) := by
  intro outcome received
  obtain ⟨buffered, same⟩ | ⟨headDone, -⟩ :=
    underway_useAll before (.inl ⟨[], by rw [push_nil]⟩) waited
  · obtain ⟨rfl, rfl⟩ := Prod.mk.inj same
    change headEnd (buffered ++ piece) = _ at ended
    have outcomeEq : outcome =
        useAll ((fresh maxBody).push buffered, []) (.feed piece :: after) :=
      useAll_append before _ waited
    have small : denoted digits < wordValues →
        denoted digits % wordValues = denoted digits := Nat.mod_eq_of_lt
    by_cases fits : denoted digits % wordValues ≤ maxBody
    · obtain ⟨delivered, accepted⟩ :=
        useAll_atBody fits (use_of_accepted nonempty ended gives fits) after
      rw [← outcomeEq] at delivered accepted
      refine ⟨fun law => ⟨fun within => ?_, fun beyond => ?_⟩, fun condition =>
        ⟨fun within => ?_, fun beyond => ?_⟩⟩
      · rw [small within] at delivered fits
        exact ⟨fits, delivered.mp (law.1 within)⟩
      · exact absurd (law.2 beyond) accepted
      · rw [small within] at delivered
        exact delivered.mpr (condition.1 within).2
      · exact absurd (condition.2 beyond) (Nat.not_lt.mpr fits)
    · have exceeds := Nat.lt_of_not_le fits
      rw [useAll, use_of_refused nonempty ended gives exceeds] at outcomeEq
      dsimp only at outcomeEq
      rw [outcomeEq]
      refine ⟨fun law => ⟨fun within => ?_, fun _ => exceeds⟩, fun condition => ⟨fun within => ?_,
        fun _ => ⟨nofun, rfl⟩⟩⟩
      · exact nomatch (law.1 within).1
      · rw [small within] at exceeds
        exact absurd (condition.1 within).1 (Nat.not_le.mpr exceeds)
  · exact absurd headDone (Bool.eq_false_iff.mp noHead)

end Head

/-- A head with a length, and what it is parsed to. -/
def lengthHead (digits : Bytes) : Bytes := str "HTTP/1.1 200 OK\r\nContent-Length: " ++ digits

def lengthResponse (digits : Bytes) : HttpResponse where
  code := 200
  reason := str "OK"
  headers := [⟨str "Content-Length", digits⟩]

theorem givesLength_zero :
    GivesLength (lengthHead (str "0")) (lengthResponse (str "0")) (str "0") :=
  ⟨rfl, by decide +kernel, by decide +kernel, by decide +kernel, by decide +kernel⟩

theorem givesLength_three :
    GivesLength (lengthHead (str "3")) (lengthResponse (str "3")) (str "3") :=
  ⟨rfl, by decide +kernel, by decide +kernel, by decide +kernel, by decide +kernel⟩

theorem givesLength_beyond :
    GivesLength (lengthHead (str "18446744073709551619"))
      (lengthResponse (str "18446744073709551619")) (str "18446744073709551619") :=
  ⟨rfl, by decide +kernel, by decide +kernel, by decide +kernel, by decide +kernel⟩

/-- What follows the head of three bytes: one is taken before the others come. -/
def afterThree : List Use := [.take 1, .feed (str "bc"), .take 9, .feed (str "de")]

theorem useAll_delivers_three :
    let outcome := useAll (fresh maxBodyBytes, []) ([.feed (str "HTTP/1.1 200 OK\r\n")] ++
      .feed (str "Content-Length: 3\r\n\r\na") :: afterThree)
    (denoted (str "3") < wordValues →
        Delivers (denoted (str "3")) (str "a" ++ fedBy afterThree) outcome) ∧
      (wordValues ≤ denoted (str "3") → Rejected outcome) := by
  have waited : useAll (fresh maxBodyBytes, []) [.feed (str "HTTP/1.1 200 OK\r\n")] =
      (((fresh maxBodyBytes).push (str "HTTP/1.1 200 OK\r\n"), []), none) := rfl
  have ended : headEnd (((fresh maxBodyBytes).push (str "HTTP/1.1 200 OK\r\n")).buf ++
      str "Content-Length: 3\r\n\r\na") = some (lengthHead (str "3"), str "a") := by
    decide +kernel
  refine (useAll_delivers_iff waited rfl (by decide +kernel) ended givesLength_three).mpr ?_
  decide +kernel

/-- A body of no bytes has the bytes behind it delivered, and a length of 2^64 + 3 is taken for
one of 3. -/
theorem useAll_undelivered :
    (GivesLength (lengthHead (str "0")) (lengthResponse (str "0")) (str "0") ∧
      ¬Delivers (denoted (str "0")) (str "x")
        (useAll (fresh maxBodyBytes, []) [.feed (lengthHead (str "0") ++ str "\r\n\r\nx")])) ∧
    GivesLength (lengthHead (str "18446744073709551619"))
        (lengthResponse (str "18446744073709551619")) (str "18446744073709551619") ∧
      denoted (str "18446744073709551619") = wordValues + 3 ∧
      ¬Rejected (useAll (fresh maxBodyBytes, [])
        [.feed (lengthHead (str "18446744073709551619") ++ str "\r\n\r\nabc")]) := by
  refine ⟨⟨givesLength_zero, fun delivers => ?_⟩, givesLength_beyond, by decide +kernel,
    fun rejected => ?_⟩
  · exact absurd delivers.2.1 (by decide +kernel)
  · exact absurd rejected.2 (by decide +kernel)

end HttpParser

end Opencodepp.Net
