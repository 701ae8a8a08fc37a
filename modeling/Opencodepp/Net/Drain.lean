import Opencodepp.Net.Chunked
import Opencodepp.Net.ContentLength

/-!
# Draining a response

A caller reads the head of a response from the transport and then hands the body on to a
consumer, as it comes.  The reads are as large as the transport makes them, and the parser is
emptied between them.  When draining succeeds, the consumer has been given the body of the
response and nothing else, in pieces, and has accepted each of them (`drainBody_sound`); what the
body is depends on the bytes received and not on the reads that brought them (`carries_unique`).

On its way out a request is as well kept: a server that reads what was sent takes the request that
was meant, as soon as all of it was sent and not before (`request_arrives_iff`).
-/

set_option autoImplicit false

namespace Opencodepp.Net.HttpParser

open Opencodepp.Core
open Opencodepp.Library
open SseParser (lineFeed)

/-! ## Reading from the transport -/

/-- What a read of the transport gives.  No bytes are the end of the connection, at which later
reads stay.  When the reads of a list are used up, the deadline has passed. -/
abbrev Read := Except Failure Bytes

/-- The bytes that reads bring before the connection ends or fails. -/
def received : List Read → Bytes
  | [] => []
  | .error _ :: _ => []
  | .ok piece :: rest => if piece = [] then [] else piece ++ received rest

/-- Feed what is read until the head has come. -/
def readHead (p : HttpParser) : List Read → Except ParseStop (HttpParser × List Read)
  | [] => .error (.refused (.of .eNetTimeout))
  | .error e :: _ => .error (.refused e)
  | .ok piece :: rest =>
      if piece = [] then .error (.refused (.of .eNetConnect))
      else
        match p.feed piece with
        | (_, some stop) => .error stop
        | (q, none) => if q.headDone then .ok (q, rest) else q.readHead rest

/-- The size of the buffer that is read into, and from which the body is handed on. -/
def scratchSize : Nat := 16 * 1024

section Drain

variable {σ : Type} (onBody : σ → Bytes → σ × Except Failure Unit)

/-- Hand on what has come of the body. -/
def handOn : Nat → HttpParser → σ → (HttpParser × σ) × Except Failure Unit
  | 0, p, s => ((p, s), .ok ())
  | fuel + 1, p, s =>
      if p.bodyBuf = [] then ((p, s), .ok ())
      else
        match onBody s (p.take scratchSize).1 with
        | (s, .error e) => (((p.take scratchSize).2, s), .error e)
        | (s, .ok _) => handOn fuel (p.take scratchSize).2 s

/-- `http_drain_body`: hand on what there is and read on, until the body is complete.  Only a body
that is framed by the end of the connection is complete there. -/
def drainBody (p : HttpParser) (s : σ) (reads : List Read) : σ × Except ParseStop Unit :=
  match handOn onBody p.bodyBuf.length p s with
  | ((_, s), .error e) => (s, .error (.refused e))
  | ((p, s), .ok _) =>
      if p.bodyDone then (s, .ok ())
      else
        match reads with
        | [] => (s, .error (.refused (.of .eNetTimeout)))
        | .error e :: _ => (s, .error (.refused e))
        | .ok piece :: rest =>
            if piece = [] then
              (s, if p.eofFramed then .ok () else .error (.refused ⟨⟨.eNetConnect, 1⟩, rfl⟩))
            else
              match p.feed piece with
              | (_, some stop) => (s, .error stop)
              | (p, none) => drainBody p s rest

/-- The consumer accepts pieces one after the other. -/
inductive Accepts : σ → List Bytes → σ → Prop
  | done (s : σ) : Accepts s [] s
  | step {s s' s'' : σ} {piece : Bytes} {rest : List Bytes}
      (accepted : onBody s piece = (s', .ok ())) (further : Accepts s' rest s'') :
      Accepts s (piece :: rest) s''

end Drain

/-! ## What has been taken -/

/-- The parser as it would be if these bytes had not been taken out of it. -/
def restore (taken : Bytes) (p : HttpParser) : HttpParser :=
  { p with bodyBuf := taken ++ p.bodyBuf }

section Restore

variable (taken : Bytes) (p : HttpParser)

theorem decodeStep_restore (rest : Bytes) :
    (p.restore taken).decodeStep rest =
      (p.decodeStep rest).map (restore taken) fun r => (r.1, r.2.restore taken) := by
  have chunk : (p.restore taken).withChunk rest = (p.withChunk rest).restore taken := by
    simp [restore, withChunk]
  have got : ((p.withChunk rest).restore taken).bodyGot = (p.withChunk rest).bodyGot := rfl
  unfold decodeStep
  rw [chunk, got]
  dsimp +instances only [restore]
  cases cutAt lineFeed rest with
  | none =>
      dsimp only
      split_ifs <;> rfl
  | some parts =>
      dsimp only
      cases chunkSizeOf parts.1 with
      | none =>
          dsimp only
          split_ifs <;> rfl
      | some size =>
          dsimp only
          split_ifs <;> rfl

theorem decodeChunked_restore :
    (p.restore taken).decodeChunked = (p.decodeChunked.1.restore taken, p.decodeChunked.2) := by
  have read : Incremental.read decodeStep (restore taken { p with buf := [] }) p.buf =
      ((Incremental.read decodeStep { p with buf := [] } p.buf).map fun out =>
        (out.1.restore taken, out.2)).mapError fun r => (r.1, r.2.restore taken) :=
    Incremental.read_map (decodeStep_restore taken) _ p.buf
  have bare : { p.restore taken with buf := [] } = restore taken { p with buf := [] } := rfl
  unfold decodeChunked
  rw [bare, show (p.restore taken).buf = p.buf from rfl, read]
  cases Incremental.read decodeStep { p with buf := [] } p.buf with
  | error stopped => rfl
  | ok reached => rfl

theorem takeBody_restore (fuel : Nat) : ∀ p : HttpParser,
    takeBody fuel (p.restore taken) =
      ((takeBody fuel p).1.restore taken, (takeBody fuel p).2) := by
  induction fuel with
  | zero => exact fun _ => rfl
  | succ fuel inductionHypothesis =>
      intro p
      have advanced (n : Nat) : (p.restore taken).advance n = (p.advance n).restore taken := by
        simp [restore, advance]
      unfold takeBody
      dsimp only
      rw [advanced, inductionHypothesis]
      dsimp +instances only [restore]
      split
      · rfl
      · generalize p.advance _ = q
        split
        · rfl
        · split
          · rfl
          · split <;> rfl

theorem feedBody_restore :
    (p.restore taken).feedBody = (p.feedBody.1.restore taken, p.feedBody.2) := by
  unfold feedBody
  rw [decodeChunked_restore, show (p.restore taken).buf = p.buf from rfl, takeBody_restore]
  dsimp +instances only [restore]
  split
  · split <;> rfl
  · rfl

/-- Parsing the head does not look at the body. -/
theorem parseHead_restore (head : Bytes) :
    (p.restore taken).parseHead head = (p.parseHead head).map (restore taken) := by
  unfold parseHead
  cases parseResponse head with
  | none => rfl
  | some st =>
      dsimp only
      split
      · rfl
      · split
        · rfl
        · cases parseU64 (httpHeader st.headers (str "Content-Length")) with
          | none => rfl
          | some len =>
              dsimp +instances only [restore]
              split <;> rfl

theorem enterBody_restore (head rest : Bytes) :
    (p.restore taken).enterBody head rest =
      ((p.enterBody head rest).1.restore taken, (p.enterBody head rest).2) := by
  unfold enterBody
  rw [parseHead_restore]
  cases p.parseHead head with
  | error stop => rfl
  | ok q => exact feedBody_restore taken { q with buf := rest }

/-- A call before the head has come. -/
theorem feed_of_noHead {p : HttpParser} {piece : Bytes} (noHead : p.headDone = false)
    (nonempty : piece ≠ []) :
    p.feed piece = ((headEnd (p.buf ++ piece)).map fun parts =>
      (p.push piece).enterBody parts.1 parts.2).getD
        (p.push piece,
          if maxHeadBytes < (p.buf ++ piece).length then some (.refused (.of .eNetOverflow))
          else none) := by
  have open_ : ¬({ p with buf := p.buf ++ piece } : HttpParser).headDone = true := by simp [noHead]
  unfold feed
  rw [if_neg nonempty]
  refine (if_neg open_).trans ?_
  cases ended : headEnd (p.buf ++ piece) with
  | some parts => rfl
  | none =>
      simp only [Option.map_none, Option.getD_none]
      split <;> rfl

/-- **Taking bytes out does not change what the parser does** with those that follow. -/
theorem feed_restore (piece : Bytes) :
    (p.restore taken).feed piece = ((p.feed piece).1.restore taken, (p.feed piece).2) := by
  by_cases empty : piece = []
  · rw [feed, if_pos empty, feed, if_pos empty]
  · cases headDone : p.headDone with
    | true =>
        rw [feed_of_headDone headDone empty, feed_of_headDone (p := p.restore taken) headDone empty]
        exact feedBody_restore taken (p.push piece)
    | false =>
        rw [feed_of_noHead headDone empty, feed_of_noHead (p := p.restore taken) headDone empty,
          show (p.restore taken).buf = p.buf from rfl]
        cases headEnd (p.buf ++ piece) with
        | none => rfl
        | some parts => exact enterBody_restore taken (p.push piece) parts.1 parts.2

theorem feedAll_restore (pieces : List Bytes) : ∀ p : HttpParser,
    (p.restore taken).feedAll pieces =
      ((p.feedAll pieces).1.restore taken, (p.feedAll pieces).2) := by
  induction pieces with
  | nil => exact fun _ => rfl
  | cons piece rest inductionHypothesis =>
      intro p
      unfold feedAll
      rw [feed_restore]
      obtain ⟨q, stop⟩ := p.feed piece
      cases stop with
      | some stop => rfl
      | none => exact inductionHypothesis q

end Restore

/-! ## What draining does -/

theorem received_append {used : List Bytes} (nonempty : ∀ piece ∈ used, piece ≠ [])
    (unread : List Read) : received (used.map .ok ++ unread) = used.flatten ++ received unread := by
  induction used with
  | nil => rfl
  | cons piece rest inductionHypothesis =>
      obtain ⟨some_, others⟩ := List.forall_mem_cons.mp nonempty
      show (if piece = [] then [] else piece ++ received (rest.map .ok ++ unread)) = _
      rw [if_neg some_, inductionHypothesis others, List.flatten_cons, List.append_assoc]

section Consumer

variable {σ : Type} {onBody : σ → Bytes → σ × Except Failure Unit} {s s' s'' : σ}

theorem Accepts.append {pieces more : List Bytes} (first : Accepts onBody s pieces s')
    (second : Accepts onBody s' more s'') : Accepts onBody s (pieces ++ more) s'' := by
  induction first with
  | done => exact second
  | step accepted _ inductionHypothesis => exact .step accepted (inductionHypothesis second)

/-- What has come of the body is handed on whole. -/
theorem handOn_ok (fuel : Nat) : ∀ {p p' : HttpParser} {s : σ}, p.bodyBuf.length ≤ fuel →
    handOn onBody fuel p s = ((p', s'), .ok ()) →
      ∃ pieces, Accepts onBody s pieces s' ∧ pieces.flatten = p.bodyBuf ∧
        p' = { p with bodyBuf := [] } := by
  induction fuel with
  | zero =>
      intro p p' s fits handed
      have empty := List.length_eq_zero_iff.mp (Nat.le_zero.mp fits)
      cases handed
      exact ⟨[], .done _, empty.symm, by rw [← empty]⟩
  | succ fuel inductionHypothesis =>
      intro p p' s fits handed
      unfold handOn at handed
      split at handed
      · next empty =>
          cases handed
          exact ⟨[], .done _, empty.symm, by rw [← empty]⟩
      · next some_ =>
          cases said : onBody s (p.take scratchSize).1 with
          | mk s₁ result =>
              rw [said] at handed
              cases result with
              | error e => cases handed
              | ok done =>
                  have positive : 0 < p.bodyBuf.length := List.length_pos_iff.mpr some_
                  have shorter : (p.take scratchSize).2.bodyBuf.length ≤ fuel := by
                    show (p.bodyBuf.drop scratchSize).length ≤ fuel
                    rw [List.length_drop]
                    have : 0 < scratchSize := by decide
                    omega
                  obtain ⟨pieces, accepts, whole, same⟩ := inductionHypothesis shorter handed
                  refine ⟨_ :: pieces, .step said accepts, ?_, same⟩
                  rw [List.flatten_cons, whole]
                  exact List.take_append_drop scratchSize p.bodyBuf

/-- **Draining that succeeds** has fed reads to the parser and handed on all that came of them, up
to the end of the body. -/
theorem drainBody_ok (reads : List Read) : ∀ {p : HttpParser} {s : σ},
    drainBody onBody p s reads = (s', .ok ()) →
      ∃ used unread pieces last, reads = used.map .ok ++ unread ∧ (∀ piece ∈ used, piece ≠ []) ∧
        p.feedAll used = (last, none) ∧ Accepts onBody s pieces s' ∧
        pieces.flatten = last.bodyBuf ∧
        (last.bodyDone = true ∨ last.eofFramed = true ∧ received unread = []) := by
  induction reads with
  | nil =>
      intro p s drained
      unfold drainBody at drained
      cases handed : handOn onBody p.bodyBuf.length p s with
      | mk out result =>
          rw [handed] at drained
          cases result with
          | error e => cases drained
          | ok done =>
              dsimp only at drained
              split at drained
              · next complete =>
                  cases drained
                  obtain ⟨pieces, accepts, whole, same⟩ := handOn_ok _ (Nat.le_refl _) handed
                  rw [same] at complete
                  exact ⟨[], [], pieces, p, rfl, by simp, rfl, accepts, whole, .inl complete⟩
              · cases drained
  | cons read rest inductionHypothesis =>
      intro p s drained
      unfold drainBody at drained
      cases handed : handOn onBody p.bodyBuf.length p s with
      | mk out result =>
          rw [handed] at drained
          cases result with
          | error e => cases drained
          | ok done =>
              obtain ⟨pieces, accepts, whole, same⟩ := handOn_ok _ (Nat.le_refl _) handed
              dsimp only at drained
              split at drained
              · next complete =>
                  cases drained
                  rw [same] at complete
                  exact ⟨[], read :: rest, pieces, p, rfl, by simp, rfl, accepts, whole,
                    .inl complete⟩
              · cases read with
                | error e => cases drained
                | ok piece =>
                    dsimp only at drained
                    split at drained
                    · next atEnd =>
                        split at drained
                        · next framed =>
                            cases drained
                            rw [same] at framed
                            exact ⟨[], .ok piece :: rest, pieces, p, rfl, by simp, rfl, accepts,
                              whole, .inr ⟨framed, if_pos atEnd⟩⟩
                        · cases drained
                    · next some_ =>
                        have restored : p = out.1.restore p.bodyBuf := by
                          rw [same]
                          simp [restore]
                        cases fed : out.1.feed piece with
                        | mk q stop =>
                            rw [fed] at drained
                            cases stop with
                            | some stop => cases drained
                            | none =>
                                obtain ⟨used, unread, more, last, split_, nonempty, ran, further,
                                  all, ended⟩ := inductionHypothesis drained
                                refine ⟨piece :: used, unread, pieces ++ more,
                                  last.restore p.bodyBuf, ?_, ?_, ?_, accepts.append further, ?_,
                                  ended⟩
                                · rw [split_]
                                  rfl
                                · exact List.forall_mem_cons.mpr ⟨some_, nonempty⟩
                                · rw [restored, feedAll_restore, feedAll, fed]
                                  dsimp only
                                  rw [ran]
                                  rw [← restored]
                                · rw [List.flatten_append, whole, all]
                                  rfl

end Consumer

/-! ## The body of a response -/

/-- The body that the bytes behind a head carry: what chunks bring up to a size of zero, as many
bytes as the length says, or everything up to the end of the connection.  A length of zero counts
as none, and how much is taken for the body is not determined. -/
inductive Carries (q : HttpParser) (stream body : Bytes) : Prop
  | chunks {line rest : Bytes} (chunked : q.chunked = true)
      (reads : Chunked.ReadsSize q.maxBody stream body line rest 0)
  | length (framed : q.lengthFramed = true) (positive : 0 < q.contentLength)
      (enough : q.contentLength ≤ stream.length) (taken : body = stream.take q.contentLength)
  | nothing (framed : q.lengthFramed = true) (zero : q.contentLength = 0)
      (taken : body <+: stream)
  | closed (framed : q.eofFramed = true) (all : body = stream)

section Carries

variable {maxBody : Nat} {q o : HttpParser} {head stream body body' : Bytes}

theorem reaches_append {whole rest : Bytes} (reaches : Chunked.Reaches maxBody stream whole rest)
    (more : Bytes) : Chunked.Reaches maxBody (stream ++ more) whole (rest ++ more) := by
  induction reaches with
  | start => exact .start
  | chunk before plain size some_ skipped held fits inductionHypothesis =>
      rw [List.append_assoc, List.cons_append, List.append_assoc] at inductionHypothesis
      exact .chunk inductionHypothesis plain size some_ skipped held fits

/-- Bytes behind the body do not change it. -/
theorem Carries.append (carries : Carries q stream body) {more : Bytes}
    (closing : q.eofFramed = true → more = []) : Carries q (stream ++ more) body := by
  cases carries with
  | chunks chunked reads =>
      have reached := reaches_append reads.reached more
      rw [List.append_assoc, List.cons_append] at reached
      exact .chunks chunked ⟨reached, reads.plain, reads.isSize⟩
  | length framed positive enough taken =>
      refine .length framed positive (Nat.le_trans enough (by simp)) ?_
      rw [List.take_append_of_le_length enough]
      exact taken
  | nothing framed zero taken =>
      exact .nothing framed zero (taken.trans (List.prefix_append stream more))
  | closed framed all =>
      rw [closing framed, List.append_nil]
      exact .closed framed all

/-- What a head without chunks leaves the parser with. -/
structure Plain (q : HttpParser) : Prop where
  noBody : q.bodyBuf = []
  got : q.bodyGot = 0
  fits : q.contentLength ≤ q.maxBody
  framing : q.eofFramed = true ∧ q.lengthFramed = false ∧ q.contentLength = 0 ∨
    q.eofFramed = false ∧ q.lengthFramed = true

theorem plain_of_parseHead (parsed : (fresh maxBody).parseHead head = .ok q)
    (noChunks : q.chunked = false) : Plain q := by
  obtain ⟨st, rfl | rfl | ⟨len, fits, rfl⟩⟩ := parseHead_eq_ok parsed
  · cases noChunks
  · exact ⟨rfl, rfl, Nat.zero_le _, .inl ⟨rfl, rfl, rfl⟩⟩
  · exact ⟨rfl, rfl, fits, .inr ⟨rfl, rfl⟩⟩

theorem notEof_of_chunked (parsed : (fresh maxBody).parseHead head = .ok q)
    (chunked : q.chunked = true) : q.eofFramed = false ∧ q.lengthFramed = false := by
  obtain ⟨st, rfl | rfl | ⟨len, fits, rfl⟩⟩ := parseHead_eq_ok parsed
  · exact ⟨rfl, rfl⟩
  · cases chunked
  · cases chunked

/-- A body that has come to its end is the one the bytes carry. -/
theorem carries_of_feedBody (parsed : (fresh maxBody).parseHead head = .ok q)
    (fed : feedBody { q with buf := stream } = (o, none))
    (ended : o.bodyDone = true ∨ o.eofFramed = true) : Carries q stream o.bodyBuf := by
  by_cases chunked : q.chunked = true
  · have start := Chunked.behindHead_of_parseHead parsed chunked
    have empty : { q with buf := [] } = q := by rw [← start.noBuf]
    have notEof : q.eofFramed = false := (notEof_of_chunked parsed chunked).1
    rw [feedBody_of_chunked (p := { q with buf := stream }) chunked start.notDone,
      decodeChunked] at fed
    dsimp only at fed
    rw [empty] at fed
    cases result : Incremental.read decodeStep q stream with
    | error stopped =>
        rw [result] at fed
        cases fed
    | ok reached =>
        obtain ⟨last, left⟩ := reached
        rw [result] at fed
        cases fed
        have leads := ((Incremental.read_eq_ok_iff steady_decodeStep).mp result).1
        have kept {γ : Type} (field : HttpParser → γ)
            (bySize : ∀ p size, field (withSize p size) = field p)
            (byChunk : ∀ p rest, field (withChunk p rest) = field p) : field last = field q :=
          leads_decodeStep field bySize byChunk leads
        have done : last.chunkedDone = true := by
          rcases ended with done | eof
          · have still : last.chunked = true :=
              (kept (·.chunked) (fun _ _ => rfl) fun _ _ => rfl).trans chunked
            unfold bodyDone at done
            simp only [still, if_true, Bool.and_eq_true] at done
            exact done.2
          · have same : last.eofFramed = q.eofFramed :=
              kept (·.eofFramed) (fun _ _ => rfl) fun _ _ => rfl
            exact absurd (same.symm.trans eof) (by simp [notEof])
        have limit := start.limit
        obtain ⟨line, rest, reads⟩ :=
          (Chunked.read_done_iff start.toAtSize).mp ⟨last, left, result, done, rfl⟩
        exact .chunks chunked (by rw [limit]; exact reads)
  · have noChunks : q.chunked = false := Bool.not_eq_true _ ▸ chunked
    have plain := plain_of_parseHead parsed noChunks
    rw [feedBody_of_plain (p := { q with buf := stream }) noChunks] at fed
    rcases Nat.eq_zero_or_pos q.contentLength with noLength | positive
    · obtain ⟨within, beyond⟩ :=
        takeBody_all (stream.length + 1) (p := { q with buf := stream }) noLength
          (Nat.lt_succ_self _)
      have all : o.bodyBuf = stream := by
        rcases Nat.lt_or_ge q.maxBody (q.bodyGot + stream.length) with exceeds | fits
        · obtain ⟨_, stopped⟩ := beyond exceeds
          exact absurd (congrArg Prod.snd (fed.symm.trans stopped)) (by simp)
        · have same : o = advance { q with buf := stream } stream.length :=
            congrArg Prod.fst (fed.symm.trans (within fits))
          rw [same]
          simp [advance, plain.noBody]
      rcases plain.framing with ⟨eof, -, -⟩ | ⟨-, framed⟩
      · exact .closed eof all
      · rw [all]
        exact .nothing framed noLength (List.prefix_refl stream)
    · have got : ¬q.contentLength ≤ q.bodyGot := by
        rw [plain.got]
        exact Nat.not_le.mpr positive
      have left : q.contentLength - q.bodyGot = q.contentLength := by rw [plain.got, Nat.sub_zero]
      have taken : takeBody (stream.length + 1) { q with buf := stream } = (advance
          { q with buf := stream } (min (q.contentLength - q.bodyGot) stream.length), none) :=
        (takeBody_length _ (p := { q with buf := stream }) positive plain.fits).trans (if_neg got)
      rw [left] at taken
      have same : o = advance { q with buf := stream } (min q.contentLength stream.length) :=
        congrArg Prod.fst (fed.symm.trans taken)
      obtain ⟨eof, framed⟩ : q.eofFramed = false ∧ q.lengthFramed = true := by
        rcases plain.framing with ⟨-, -, zero⟩ | framing
        · exact absurd zero (Nat.pos_iff_ne_zero.mp positive)
        · exact framing
      rw [same] at ended ⊢
      have enough : q.contentLength ≤ stream.length := by
        rcases ended with done | closed
        · have reached : q.contentLength ≤ min q.contentLength stream.length := by
            unfold bodyDone at done
            rw [Bool.and_eq_true] at done
            simpa [advance, noChunks, plain.got, framed] using done.2
          exact Nat.le_trans reached (Nat.min_le_right _ _)
        · exact absurd (eof.symm.trans closed) (by simp)
      refine .length framed positive enough ?_
      simp [advance, plain.noBody, Nat.min_eq_left enough]

/-- **The body is determined by the bytes**, unless a length of zero leaves it open. -/
theorem carries_unique (parsed : (fresh maxBody).parseHead head = .ok q)
    (given : q.lengthFramed = true → q.contentLength ≠ 0) (first : Carries q stream body)
    (second : Carries q stream body') : body = body' := by
  by_cases chunked : q.chunked = true
  · have start := Chunked.behindHead_of_parseHead parsed chunked
    obtain ⟨notEof, noLength⟩ := notEof_of_chunked parsed chunked
    have limit := start.limit
    have read {b : Bytes} (carries : Carries q stream b) :
        ∃ p rest, Incremental.read decodeStep q stream = .ok (p, rest) ∧ p.bodyBuf = b := by
      cases carries with
      | chunks _ reads =>
          rw [limit] at reads
          obtain ⟨p, rest, result, -, same⟩ :=
            (Chunked.read_done_iff start.toAtSize).mpr ⟨_, _, reads⟩
          exact ⟨p, rest, result, same⟩
      | length framed | nothing framed => exact absurd (noLength.symm.trans framed) (by simp)
      | closed framed => exact absurd (notEof.symm.trans framed) (by simp)
    obtain ⟨p, rest, result, rfl⟩ := read first
    obtain ⟨p', rest', result', rfl⟩ := read second
    cases result.symm.trans result'
    rfl
  · have plain := plain_of_parseHead parsed (Bool.not_eq_true _ ▸ chunked)
    have taken {b : Bytes} (carries : Carries q stream b) :
        b = if q.eofFramed then stream else stream.take q.contentLength := by
      rcases plain.framing with ⟨eof, noLength, -⟩ | ⟨eof, framed⟩
      · rw [eof, if_pos rfl]
        cases carries with
        | chunks isChunked => exact absurd isChunked chunked
        | length framed | nothing framed => exact absurd (noLength.symm.trans framed) (by simp)
        | closed _ all => exact all
      · rw [eof, if_neg Bool.false_ne_true]
        cases carries with
        | chunks isChunked => exact absurd isChunked chunked
        | length _ _ _ taken => exact taken
        | nothing _ zero => exact absurd zero (given framed)
        | closed closed => exact absurd (eof.symm.trans closed) (by simp)
    exact (taken first).trans (taken second).symm

end Carries

/-! ## Whole responses -/

/-- What the body leaves alone of the head. -/
structure Kept (p q : HttpParser) : Prop where
  head : q.head = p.head
  headDone : q.headDone = p.headDone
  chunked : q.chunked = p.chunked
  eofFramed : q.eofFramed = p.eofFramed
  lengthFramed : q.lengthFramed = p.lengthFramed

theorem Kept.trans {p q r : HttpParser} (first : Kept p q) (second : Kept q r) : Kept p r where
  head := second.head.trans first.head
  headDone := second.headDone.trans first.headDone
  chunked := second.chunked.trans first.chunked
  eofFramed := second.eofFramed.trans first.eofFramed
  lengthFramed := second.lengthFramed.trans first.lengthFramed

theorem kept_takeBody (fuel : Nat) : ∀ p : HttpParser, Kept p (takeBody fuel p).1 := by
  induction fuel with
  | zero => exact fun _ => ⟨rfl, rfl, rfl, rfl, rfl⟩
  | succ fuel inductionHypothesis =>
      intro p
      have advanced : ∀ n, Kept p (p.advance n) := fun _ => ⟨rfl, rfl, rfl, rfl, rfl⟩
      unfold takeBody
      split
      · exact ⟨rfl, rfl, rfl, rfl, rfl⟩
      · dsimp only
        generalize min _ p.buf.length = n
        have here := advanced n
        split
        · exact here
        · split
          · exact here
          · split
            · exact here
            · exact here.trans (inductionHypothesis (p.advance n))

section Responses

variable {maxBody : Nat} {p q : HttpParser}

theorem kept_feedBody (fed : p.feedBody = (q, none)) : Kept p q := by
  unfold feedBody at fed
  split at fed
  · split at fed
    · cases fed
      exact ⟨rfl, rfl, rfl, rfl, rfl⟩
    · unfold decodeChunked at fed
      cases result : Incremental.read decodeStep { p with buf := [] } p.buf with
      | error stopped =>
          rw [result] at fed
          cases fed
      | ok reached =>
          rw [result] at fed
          cases fed
          have leads := ((Incremental.read_eq_ok_iff steady_decodeStep).mp result).1
          have kept {γ : Type} (field : HttpParser → γ)
              (bySize : ∀ p size, field (withSize p size) = field p)
              (byChunk : ∀ p rest, field (withChunk p rest) = field p) :
              field reached.1 = field { p with buf := [] } :=
            leads_decodeStep field bySize byChunk leads
          exact ⟨kept (·.head) (fun _ _ => rfl) fun _ _ => rfl,
            kept (·.headDone) (fun _ _ => rfl) fun _ _ => rfl,
            kept (·.chunked) (fun _ _ => rfl) fun _ _ => rfl,
            kept (·.eofFramed) (fun _ _ => rfl) fun _ _ => rfl,
            kept (·.lengthFramed) (fun _ _ => rfl) fun _ _ => rfl⟩
  · have kept := kept_takeBody (p.buf.length + 1) p
    rw [fed] at kept
    exact kept

theorem kept_feedAll (pieces : List Bytes) : ∀ {p : HttpParser}, p.headDone = true →
    p.feedAll pieces = (q, none) → Kept p q := by
  induction pieces with
  | nil =>
      intro p _ fed
      cases fed
      exact ⟨rfl, rfl, rfl, rfl, rfl⟩
  | cons piece rest inductionHypothesis =>
      intro p headDone fed
      unfold feedAll at fed
      cases first : p.feed piece with
      | mk r stop =>
          rw [first] at fed
          cases stop with
          | some stop => cases fed
          | none =>
              have kept : Kept p r := by
                by_cases empty : piece = []
                · rw [feed, if_pos empty] at first
                  cases first
                  exact ⟨rfl, rfl, rfl, rfl, rfl⟩
                · rw [feed_of_headDone headDone empty] at first
                  exact Kept.trans (q := p.push piece) ⟨rfl, rfl, rfl, rfl, rfl⟩
                    (kept_feedBody first)
              exact kept.trans (inductionHypothesis (kept.headDone.trans headDone) fed)

theorem feedAll_append (first second : List Bytes) : ∀ {p : HttpParser},
    p.feedAll first = (q, none) → p.feedAll (first ++ second) = q.feedAll second := by
  induction first with
  | nil =>
      intro p fed
      cases fed
      rfl
  | cons piece rest inductionHypothesis =>
      intro p fed
      rw [feedAll] at fed
      rw [List.cons_append, feedAll]
      cases fed' : p.feed piece with
      | mk r stop =>
          rw [fed'] at fed
          cases stop with
          | some stop => cases fed
          | none => exact inductionHypothesis fed

/-- The reads up to the rest have been fed, and the head has come with them. -/
def Headed (p : HttpParser) (reads : List Read) (q : HttpParser) (rest : List Read) : Prop :=
  ∃ used, reads = used.map .ok ++ rest ∧ (∀ piece ∈ used, piece ≠ []) ∧
    p.feedAll used = (q, none) ∧ q.headDone = true

theorem Headed.cons {r : HttpParser} {piece : Bytes} {reads rest : List Read} (some_ : piece ≠ [])
    (fed : p.feed piece = (r, none)) (headed : Headed r reads q rest) :
    Headed p (.ok piece :: reads) q rest := by
  obtain ⟨used, split_, nonempty, ran, done⟩ := headed
  refine ⟨piece :: used, by rw [split_]; rfl, List.forall_mem_cons.mpr ⟨some_, nonempty⟩, ?_, done⟩
  rw [feedAll, fed]
  exact ran

theorem headed_readHead (reads : List Read) {rest : List Read} : ∀ {p : HttpParser},
    p.readHead reads = .ok (q, rest) → Headed p reads q rest := by
  induction reads with
  | nil =>
      intro p headed
      cases headed
  | cons read reads inductionHypothesis =>
      intro p headed
      cases read with
      | error e => cases headed
      | ok piece =>
          unfold readHead at headed
          split at headed
          · cases headed
          · next some_ =>
              cases fed : p.feed piece with
              | mk r stop =>
                  rw [fed] at headed
                  cases stop with
                  | some stop => cases headed
                  | none =>
                      dsimp only at headed
                      split at headed
                      · next done =>
                          cases headed
                          exact .cons some_ fed ⟨[], rfl, by simp, rfl, done⟩
                      · exact .cons some_ fed (inductionHypothesis headed)

/-- The bytes are a response with this head and this body. -/
def IsResponse (maxBody : Nat) (bytes : Bytes) (st : HttpResponse) (body : Bytes) : Prop :=
  ∃ head stream q, headEnd bytes = some (head, stream) ∧ (fresh maxBody).parseHead head = .ok q ∧
    q.head = st ∧ Carries q stream body

/-- No pair of bare line feeds stands before the blank line that ends the head. -/
def PlainHead (bytes : Bytes) : Prop := ∀ i j, ¬BareBlankFirst bytes i j

/-- The end of the head is seen from its first bytes. -/
theorem headEnd_append {front back head rest : Bytes} (plain : PlainHead (front ++ back))
    (ended : headEnd front = some (head, rest)) :
    headEnd (front ++ back) = some (head, rest ++ back) := by
  obtain ⟨j, blank, isHead, isRest⟩ | ⟨i, bare, before, isHead, isRest⟩ := headEnd_part ended back
  · unfold headEnd
    rw [blank, isHead, isRest]
  · unfold headEnd
    cases blank : indexOf (crlf ++ crlf) (front ++ back) with
    | some j => exact absurd ⟨bare, blank, before j blank⟩ (plain i j)
    | none =>
        rw [bare, isHead, isRest]
        rfl

/-- A parser that shows no refusal is where the message has brought another. -/
theorem reading_eq_none {stop : Option ParseStop}
    (same : reading (p, none) = reading (q, stop)) :
    stop = none ∧ p.bodyBuf = q.bodyBuf ∧ p.bodyDone = q.bodyDone ∧ p.eofFramed = q.eofFramed ∧
      (p.headDone = true → q.headDone = true ∧ p.head = q.head) := by
  have notCapped : ¬(none : Option ParseStop) = some (.refused (.of .eNetOverflow)) := nofun
  by_cases capped : stop = some (.refused (.of .eNetOverflow))
  · rw [capped, reading_overflow, reading, if_neg notCapped] at same
    cases same
  · rw [reading, if_neg notCapped, reading, if_neg capped] at same
    simp only [Option.some.injEq, Reading.mk.injEq] at same
    obtain ⟨stop, head, -, eof, -, -, body, done⟩ := same
    refine ⟨stop.symm, body, done, eof, fun headDone => ?_⟩
    rw [if_pos headDone] at head
    by_cases isDone : q.headDone = true
    · rw [if_pos isDone] at head
      exact ⟨isDone, Option.some.inj head⟩
    · rw [if_neg isDone] at head
      cases head

/-- **A response that has been drained was complete**, and the consumer has accepted its body,
piece by piece. -/
theorem drained_isResponse {σ : Type} {onBody : σ → Bytes → σ × Except Failure Unit} {s s' : σ}
    {reads rest : List Read} (plain : PlainHead (received reads))
    (headed : Headed (fresh maxBody) reads p rest)
    (drained : drainBody onBody p s rest = (s', .ok ())) :
    ∃ pieces, IsResponse maxBody (received reads) p.head pieces.flatten ∧
      Accepts onBody s pieces s' := by
  obtain ⟨first, split_, firstSome, ran, headDone⟩ := headed
  obtain ⟨second, unread, pieces, last, split', secondSome, ran', accepts, whole, ended⟩ :=
    drainBody_ok rest drained
  have kept := kept_feedAll second headDone ran'
  have nonempty : ∀ piece ∈ first ++ second, piece ≠ [] := by
    intro piece member
    exact (List.mem_append.mp member).elim (firstSome piece) (secondSome piece)
  have all : received reads = (first ++ second).flatten ++ received unread := by
    rw [split_, split', ← List.append_assoc, ← List.map_append, received_append nonempty]
  have fed : (fresh maxBody).feedAll (first ++ second) = (last, none) :=
    (feedAll_append first second ran).trans ran'
  have shown : Shown maxBody ([] ++ (first ++ second).flatten)
      (reading (((fresh maxBody).push []).feedAll (first ++ second))) :=
    shown_feedAll (first ++ second) nonempty rfl
  rw [push_nil, fed, List.nil_append] at shown
  generalize seen_ : reading (last, none) = outcome at shown
  refine ⟨pieces, ?_, accepts⟩
  cases shown with
  | capped => cases seen_
  | waiting noHead =>
      have late := ((reading_eq_none seen_).2.2.2.2 (kept.headDone.trans headDone)).1
      cases late
  | @ended front back head after cut atEnd =>
      rw [all, cut, List.append_assoc] at plain ⊢
      cases parsed : (fresh maxBody).parseHead head with
      | error stop =>
          rw [readMessage, enterBody, parsed] at seen_
          cases (reading_eq_none seen_).1
      | ok r =>
          rw [readMessage, enterBody, parsed] at seen_
          dsimp only at seen_
          cases entered : feedBody { r with buf := after ++ back } with
          | mk o stop =>
              rw [entered] at seen_
              obtain ⟨rfl, body, done, eof, heads⟩ := reading_eq_none seen_
              have stays := kept_feedBody entered
              obtain ⟨-, sameHead⟩ := heads (kept.headDone.trans headDone)
              rw [done, eof] at ended
              refine ⟨head, after ++ (back ++ received unread), r, headEnd_append plain atEnd,
                parsed, ?_, ?_⟩
              · exact (stays.head.symm.trans sameHead.symm).trans kept.head
              · rw [whole, body, ← List.append_assoc]
                refine (carries_of_feedBody parsed entered (ended.imp id And.left)).append ?_
                intro closing
                refine (ended.resolve_left fun isDone => ?_).2
                have noChunks : r.chunked = false := by
                  by_contra chunked
                  have notEof := (notEof_of_chunked parsed (by simpa using chunked)).1
                  exact absurd (notEof.symm.trans closing) (by simp)
                have noLength : r.lengthFramed = false := by
                  rcases (plain_of_parseHead parsed noChunks).framing with ⟨-, no, -⟩ | ⟨notEof, -⟩
                  · exact no
                  · exact absurd (notEof.symm.trans closing) (by simp)
                unfold bodyDone at isDone
                rw [stays.chunked, stays.lengthFramed] at isDone
                simp [noChunks, noLength] at isDone

/-- The head does not give a length of zero. -/
def NoZeroLength (maxBody : Nat) (bytes : Bytes) : Prop :=
  ∀ head stream q, headEnd bytes = some (head, stream) → (fresh maxBody).parseHead head = .ok q →
    q.lengthFramed = true → q.contentLength ≠ 0

/-- **The bytes of a response determine its head and its body**, unless a length of zero leaves
the body open. -/
theorem IsResponse.unique {bytes body body' : Bytes} {st st' : HttpResponse}
    (given : NoZeroLength maxBody bytes)
    (first : IsResponse maxBody bytes st body) (second : IsResponse maxBody bytes st' body') :
    st = st' ∧ body = body' := by
  obtain ⟨head, stream, q, ended, parsed, rfl, carries⟩ := first
  obtain ⟨head', stream', q', ended', parsed', rfl, carries'⟩ := second
  cases ended.symm.trans ended'
  cases parsed.symm.trans parsed'
  exact ⟨rfl, carries_unique parsed (given head stream q ended parsed) carries carries'⟩

end Responses

/-! ## An exchange -/

/-- Write what is left of a request.  A write of nothing is an error. -/
def writeAll : Nat → List (Except Failure Nat) → Except Failure Unit
  | 0, _ => .ok ()
  | _ + 1, [] => .error (.of .eNetTimeout)
  | _ + 1, .error e :: _ => .error e
  | left + 1, .ok sent :: rest =>
      if sent = 0 then .error ⟨⟨.eNetConnect, 2⟩, rfl⟩ else writeAll (left + 1 - sent) rest

/-- Feed what is read until the response is complete, or the connection ends behind its head. -/
def fill (p : HttpParser) : List Read → Except ParseStop (HttpParser × List Read)
  | [] => .error (.refused (.of .eNetTimeout))
  | .error e :: _ => .error (.refused e)
  | .ok piece :: rest =>
      if piece = [] then
        if p.headDone then .ok (p, .ok piece :: rest)
        else .error (.refused ⟨⟨.eNetConnect, 3⟩, rfl⟩)
      else
        match p.feed piece with
        | (_, some stop) => .error stop
        | (q, none) => if q.bodyDone then .ok (q, rest) else q.fill rest

/-- What is kept of a body. -/
structure Collected where
  body : Bytes
  truncated : Bool
  deriving Repr, DecidableEq

/-- Keep a piece of the body, up to the limit; a limit of zero is none. -/
def collect (limit : Nat) (c : Collected) (piece : Bytes) : Collected × Except Failure Unit :=
  if limit = 0 ∨ c.body.length + piece.length ≤ limit then
    (⟨c.body ++ piece, c.truncated⟩, .ok ())
  else (⟨c.body ++ piece.take (limit - c.body.length), true⟩, .ok ())

/-- `http_exchange`: write the request, read the response, and keep its body up to the limit. -/
def httpExchange (req : HttpRequest) (sends : List (Except Failure Nat)) (reads : List Read)
    (limit : Nat) : Except ParseStop (HttpResponse × Collected) :=
  match httpBuildRequest req with
  | .error e => .error (.refused e)
  | .ok wire =>
      match writeAll wire.length sends with
      | .error e => .error (.refused e)
      | .ok _ =>
          match (fresh maxBodyBytes).fill reads with
          | .error stop => .error stop
          | .ok (p, rest) =>
              match drainBody (collect limit) p ⟨[], false⟩ rest with
              | (_, .error stop) => .error stop
              | (kept, .ok _) => .ok (p.head, kept)

section Exchange

variable {p q : HttpParser} {limit : Nat}

theorem headed_fill (reads : List Read) {rest : List Read} : ∀ {p : HttpParser},
    p.fill reads = .ok (q, rest) → Headed p reads q rest := by
  induction reads with
  | nil =>
      intro p filled
      cases filled
  | cons read reads inductionHypothesis =>
      intro p filled
      cases read with
      | error e => cases filled
      | ok piece =>
          unfold fill at filled
          split at filled
          · split at filled
            · next done =>
                cases filled
                exact ⟨[], rfl, by simp, rfl, done⟩
            · cases filled
          · next some_ =>
              cases fed : p.feed piece with
              | mk r stop =>
                  rw [fed] at filled
                  cases stop with
                  | some stop => cases filled
                  | none =>
                      dsimp only at filled
                      split at filled
                      · next done =>
                          cases filled
                          unfold bodyDone at done
                          exact .cons some_ fed
                            ⟨[], rfl, by simp, rfl, (Bool.and_eq_true_iff.mp done).1⟩
                      · exact .cons some_ fed (inductionHypothesis filled)

/-- What is kept of the bytes handed on so far. -/
def keptOf (limit : Nat) (body : Bytes) : Collected :=
  if limit = 0 then ⟨body, false⟩ else ⟨body.take limit, decide (limit < body.length)⟩

theorem collect_keptOf (body piece : Bytes) :
    collect limit (keptOf limit body) piece = (keptOf limit (body ++ piece), .ok ()) := by
  unfold collect keptOf
  by_cases unlimited : limit = 0
  · simp [unlimited]
  · simp only [unlimited, if_false, false_or, List.length_take, List.length_append]
    by_cases fits : min limit body.length + piece.length ≤ limit
    · have whole : piece = [] ∨ body.length + piece.length ≤ limit := by
        rcases Nat.lt_or_ge limit body.length with longer | shorter
        · rw [Nat.min_eq_left (Nat.le_of_lt longer)] at fits
          exact .inl (List.length_eq_zero_iff.mp (by omega))
        · rw [Nat.min_eq_right shorter] at fits
          exact .inr fits
      rw [if_pos fits]
      rcases whole with rfl | within
      · simp
      · rw [List.take_of_length_le (by omega), List.take_of_length_le (by simp; omega)]
        simp [Nat.not_lt.mpr within, Nat.not_lt.mpr (Nat.le_trans (Nat.le_add_right _ _) within)]
    · rw [if_neg fits]
      have beyond : limit < body.length + piece.length := by omega
      simp only [beyond, decide_true, List.take_append, Prod.mk.injEq, Collected.mk.injEq, and_true]
      rcases Nat.lt_or_ge limit body.length with longer | shorter
      · rw [Nat.min_eq_left (Nat.le_of_lt longer), Nat.sub_self,
          Nat.sub_eq_zero_of_le (Nat.le_of_lt longer)]
      · rw [Nat.min_eq_right shorter]

theorem keptOf_of_accepts {pieces : List Bytes} : ∀ {body : Bytes} {kept : Collected},
    Accepts (collect limit) (keptOf limit body) pieces kept →
      kept = keptOf limit (body ++ pieces.flatten) := by
  induction pieces with
  | nil =>
      intro body kept accepts
      cases accepts
      rw [List.flatten_nil, List.append_nil]
  | cons piece rest inductionHypothesis =>
      intro body kept accepts
      cases accepts with
      | step accepted further =>
          rw [collect_keptOf] at accepted
          cases accepted
          rw [inductionHypothesis further, List.flatten_cons, List.append_assoc]

/-- What an exchange returns is the response that was received. -/
theorem isResponse_of_exchange {req : HttpRequest} {sends : List (Except Failure Nat)}
    {reads : List Read} {st : HttpResponse} {kept : Collected} (plain : PlainHead (received reads))
    (exchanged : httpExchange req sends reads limit = .ok (st, kept)) :
    ∃ body, IsResponse maxBodyBytes (received reads) st body ∧ kept = keptOf limit body := by
  unfold httpExchange at exchanged
  cases built : httpBuildRequest req with
  | error e =>
      rw [built] at exchanged
      cases exchanged
  | ok wire =>
      rw [built] at exchanged
      dsimp only at exchanged
      cases written : writeAll wire.length sends with
      | error e =>
          rw [written] at exchanged
          cases exchanged
      | ok done =>
          rw [written] at exchanged
          dsimp only at exchanged
          cases filled : (fresh maxBodyBytes).fill reads with
          | error stop =>
              rw [filled] at exchanged
              cases exchanged
          | ok reached =>
              obtain ⟨p, rest⟩ := reached
              rw [filled] at exchanged
              dsimp only at exchanged
              cases drained : drainBody (collect limit) p ⟨[], false⟩ rest with
              | mk held result =>
                  rw [drained] at exchanged
                  cases result with
                  | error stop => cases exchanged
                  | ok done =>
                      cases exchanged
                      obtain ⟨pieces, response, accepts⟩ :=
                        drained_isResponse plain (headed_fill reads filled) drained
                      have start : keptOf limit [] = ⟨[], false⟩ := by
                        unfold keptOf
                        split <;> simp
                      rw [← start] at accepts
                      exact ⟨pieces.flatten, response, keptOf_of_accepts accepts⟩

/-- **An exchange returns the response that was received**, its body cut to the limit and marked
when it was, and however the transport cuts the same bytes, it returns the same. -/
theorem httpExchange_returns {req : HttpRequest} {sends : List (Except Failure Nat)}
    {reads : List Read} {st : HttpResponse} {kept : Collected} (plain : PlainHead (received reads))
    (exchanged : httpExchange req sends reads limit = .ok (st, kept)) :
    (∃ body, IsResponse maxBodyBytes (received reads) st body ∧ kept = keptOf limit body) ∧
    ∀ req' sends' reads' st' kept', NoZeroLength maxBodyBytes (received reads) →
      received reads' = received reads →
        httpExchange req' sends' reads' limit = .ok (st', kept') → st' = st ∧ kept' = kept := by
  obtain ⟨body, response, same⟩ := isResponse_of_exchange plain exchanged
  refine ⟨⟨body, response, same⟩, fun req' sends' reads' st' kept' given sameBytes again => ?_⟩
  obtain ⟨body', response', same'⟩ := isResponse_of_exchange (sameBytes ▸ plain) again
  rw [sameBytes] at response'
  obtain ⟨rfl, rfl⟩ := response'.unique given response
  exact ⟨rfl, same'.trans same.symm⟩

/-- A response of three bytes, in two reads. -/
def threeBytes : List Read :=
  [.ok (str "HTTP/1.1 200 OK\r\nContent-Length: 3\r\n\r\na"), .ok (str "bcd")]

def getRoot : HttpRequest := ⟨str "GET", str "/", [], [], []⟩

theorem plainHead_threeBytes : PlainHead (received threeBytes) := by
  rintro i j ⟨bare, -⟩
  have noBare : indexOf [lineFeed, lineFeed] (received threeBytes) = none := by decide +kernel
  rw [noBare] at bare
  cases bare

/-- Of three bytes two are kept. -/
theorem httpExchange_returns_three :
    ∃ body, IsResponse maxBodyBytes (received threeBytes) (lengthResponse (str "3")) body ∧
      (⟨str "ab", true⟩ : Collected) = keptOf 2 body := by
  have exchanged : httpExchange getRoot [.ok 100] threeBytes 2 =
      .ok (lengthResponse (str "3"), ⟨str "ab", true⟩) := by decide +kernel
  exact (httpExchange_returns plainHead_threeBytes exchanged).1

end Exchange

end Opencodepp.Net.HttpParser

namespace Opencodepp.Net

open Opencodepp.Core
open Opencodepp.Library
open Opencodepp.Provider

/-! ## What a server reads

A server takes a request from a connection by its grammar: lines that end with CRLF, up to an
empty one; the request line cut at its blanks, a field at its first colon with the blanks around
its value taken off; then as many bytes as the length field says. -/

/-- A request as a server has it. -/
structure Received where
  method : Bytes
  target : Bytes
  version : Bytes
  fields : List HttpHeader
  body : Bytes
  deriving Repr, DecidableEq

/-- The first line of a stream and what follows it. -/
def takeLine (s : Bytes) : Option (Bytes × Bytes) :=
  (indexOf crlf s).map fun i => (s.take i, s.drop (i + 2))

/-- A field: its name up to the first colon, and its value. -/
def readField (line : Bytes) : HttpHeader :=
  ⟨line.takeWhile (· ≠ 0x3a), trim ((line.dropWhile (· ≠ 0x3a)).drop 1)⟩

/-- The fields up to the empty line, with at most so many lines. -/
def takeFields : Nat → Bytes → Option (List HttpHeader × Bytes)
  | 0, _ => none
  | fuel + 1, s =>
      (takeLine s).bind fun cut =>
        if cut.1 = [] then some ([], cut.2)
        else (takeFields fuel cut.2).map fun more => (readField cut.1 :: more.1, more.2)

/-- The length of the body that the fields announce. -/
def announced (fields : List HttpHeader) : Nat :=
  digitsValue (httpHeader fields (str "Content-Length"))

/-- One request and the rest of the stream. -/
def takeRequest (s : Bytes) : Option (Received × Bytes) :=
  (takeLine s).bind fun line =>
    (takeFields line.2.length line.2).bind fun head =>
      let behind := (line.1.dropWhile (· ≠ 0x20)).drop 1
      if head.2.length < announced head.1 then none
      else some (⟨line.1.takeWhile (· ≠ 0x20), behind.takeWhile (· ≠ 0x20),
        (behind.dropWhile (· ≠ 0x20)).drop 1, head.1, head.2.take (announced head.1)⟩,
          head.2.drop (announced head.1))

/-! ### What was sent -/

/-- The fields that are added to those of a request. -/
def addedFields (req : HttpRequest) : List HttpHeader :=
  (if req.body ≠ [] && !(req.headers.any fun h => ciEquals h.name (str "Content-Length")) then
      [⟨str "Content-Length", decimal req.body.length⟩] else []) ++
    if req.requestId ≠ [] && !(req.headers.any fun h => ciEquals h.name (str "X-Request-Id")) then
      [⟨str "X-Request-Id", req.requestId⟩] else []

/-- A request as it is meant to arrive. -/
def meant (req : HttpRequest) : Received :=
  ⟨req.method, if req.path = [] then str "/" else req.path, str "HTTP/1.1",
    req.headers ++ addedFields req, req.body⟩

/-- A text has no line break in it. -/
def OneLine (s : Bytes) : Prop := occursIn crlf s = false

instance (s : Bytes) : Decidable (OneLine s) :=
  inferInstanceAs (Decidable (occursIn crlf s = false))

/-- A field that stays one: its name has no colon, its line no break, and its value no blanks
around it. -/
structure PlainField (h : HttpHeader) : Prop where
  name : 0x3a ∉ h.name
  line : OneLine (h.name ++ str ": " ++ h.value)
  value : trim h.value = h.value

/-- A request whose parts keep to their places, with a length field, if it has one of its own, that
tells the length of its body. -/
structure PlainRequest (req : HttpRequest) : Prop where
  method : 0x20 ∉ req.method
  target : 0x20 ∉ req.path
  line : OneLine (req.method ++ str " " ++ (if req.path = [] then str "/" else req.path) ++
    str " HTTP/1.1")
  fields : ∀ h ∈ req.headers, PlainField h
  length : ∀ h ∈ req.headers, ciEquals h.name (str "Content-Length") = true →
    h.value = decimal req.body.length
  requestId : PlainField ⟨str "X-Request-Id", req.requestId⟩

/-- The lines of fields. -/
def fieldLines (fields : List HttpHeader) : Bytes :=
  fields.flatMap fun h => h.name ++ str ": " ++ h.value ++ crlf

theorem appendHeaders_eq (headers : List HttpHeader) : ∀ {out head : Bytes},
    appendHeaders out headers = some head → head = out ++ fieldLines headers := by
  induction headers with
  | nil =>
      intro out head appended
      obtain rfl := Option.some.inj appended
      exact (List.append_nil _).symm
  | cons h rest inductionHypothesis =>
      intro out head appended
      unfold appendHeaders at appended
      dsimp only at appended
      split at appended
      · cases appended
      · rw [inductionHypothesis appended]
        simp [fieldLines]

/-- The bytes of a request are its line, its fields with the added ones, and its body. -/
theorem wire_of_httpBuildRequest {req : HttpRequest} {wire : Bytes}
    (built : httpBuildRequest req = .ok wire) :
    wire = (req.method ++ str " " ++ (if req.path = [] then str "/" else req.path) ++
      str " HTTP/1.1") ++ crlf ++ (fieldLines (req.headers ++ addedFields req) ++ crlf ++
        req.body) := by
  unfold httpBuildRequest at built
  dsimp only at built
  cases appended : appendHeaders (req.method ++ str " " ++
      (if req.path = [] then str "/" else req.path) ++ str " HTTP/1.1" ++ crlf) req.headers with
  | none =>
      rw [appended] at built
      cases built
  | some head =>
      rw [appended] at built
      dsimp only at built
      have shape := appendHeaders_eq req.headers appended
      unfold addedFields
      by_cases sized : (decide (req.body ≠ []) &&
          !(req.headers.any fun h => ciEquals h.name (str "Content-Length"))) = true <;>
        by_cases tagged : (decide (req.requestId ≠ []) &&
          !(req.headers.any fun h => ciEquals h.name (str "X-Request-Id"))) = true
      all_goals
        simp only [sized, tagged, if_true, Bool.false_eq_true, if_false] at built ⊢
        split at built
        · cases built
        · cases built
          subst shape
          have length : str "Content-Length: " = str "Content-Length" ++ str ": " := by decide
          have tag : str "X-Request-Id: " = str "X-Request-Id" ++ str ": " := by decide
          simp [fieldLines, length, tag]

/-! ### Reading it back -/

theorem indexOf_crlf {line : Bytes} (one : OneLine line) : indexOf crlf (line ++ crlf) =
    some line.length := by
  induction line with
  | nil => rfl
  | cons b rest inductionHypothesis =>
      have whole : ∀ before after, b :: rest ≠ before ++ crlf ++ after := by
        intro before after same
        have occurs := (occursIn_iff crlf).mpr ⟨before, after, same⟩
        exact Bool.false_ne_true (one.symm.trans occurs)
      have later : OneLine rest := by
        refine Bool.eq_false_iff.mpr fun occurs => ?_
        obtain ⟨before, after, same⟩ := (occursIn_iff crlf).mp occurs
        exact whole (b :: before) after (by rw [same]; rfl)
      have notHere : ¬ crlf.isPrefixOf (b :: (rest ++ crlf)) = true := by
        intro starts
        obtain ⟨after, same⟩ := List.isPrefixOf_iff_prefix.mp starts
        cases rest with
        | nil =>
            simp only [crlf, List.cons_append, List.nil_append, List.cons.injEq] at same
            exact absurd same.2.1 (by decide)
        | cons c rest =>
            simp only [crlf, List.cons_append, List.nil_append, List.cons.injEq] at same
            exact whole [] rest (by rw [← same.1, ← same.2.1]; rfl)
      rw [List.cons_append, indexOf, if_neg notHere, inductionHypothesis later]
      rfl

theorem takeLine_of_oneLine {line : Bytes} (one : OneLine line) (rest : Bytes) :
    takeLine (line ++ crlf ++ rest) = some (line, rest) := by
  unfold takeLine
  rw [indexOf_append rest (indexOf_crlf one), Option.map_some, List.append_assoc, List.take_left]
  have behind : (line ++ (crlf ++ rest)).drop (line.length + 2) = rest := by
    rw [List.drop_append, List.drop_eq_nil_of_le (by omega), List.nil_append]
    have two : line.length + 2 - line.length = 2 := by omega
    rw [two]
    rfl
  rw [behind]

/-- A text is cut at the first separator. -/
theorem cut_at {sep : UInt8} {before : Bytes} (clean : sep ∉ before) (after : Bytes) :
    (before ++ sep :: after).takeWhile (· ≠ sep) = before ∧
      ((before ++ sep :: after).dropWhile (· ≠ sep)).drop 1 = after := by
  have inside : ∀ b ∈ before, decide (b ≠ sep) = true :=
    fun b member => decide_eq_true fun same => clean (same ▸ member)
  rw [List.takeWhile_append_of_pos inside, List.dropWhile_append_of_pos inside,
    List.takeWhile_cons_of_neg (by simp), List.dropWhile_cons_of_neg (by simp), List.append_nil]
  exact ⟨rfl, rfl⟩

theorem readField_of_plain {h : HttpHeader} (plain : PlainField h) :
    readField (h.name ++ str ": " ++ h.value) = h := by
  have value : trim (0x20 :: h.value) = h.value := by
    have blank : trim (0x20 :: h.value) = trim h.value := rfl
    rw [blank, plain.value]
  have shape : h.name ++ str ": " ++ h.value = h.name ++ 0x3a :: 0x20 :: h.value := by
    rw [List.append_assoc]
    rfl
  obtain ⟨name, behind⟩ := cut_at plain.name (0x20 :: h.value)
  unfold readField
  rw [shape, name, behind, value]

theorem takeFields_fieldLines (rest : Bytes) (fields : List HttpHeader) : ∀ {fuel : Nat},
    (∀ h ∈ fields, PlainField h) → fields.length < fuel →
      takeFields fuel (fieldLines fields ++ crlf ++ rest) = some (fields, rest) := by
  induction fields with
  | nil =>
      intro fuel _ enough
      obtain ⟨fuel, rfl⟩ := Nat.exists_eq_succ_of_ne_zero (Nat.ne_of_gt enough)
      have blank : OneLine [] := rfl
      unfold takeFields
      rw [show fieldLines [] ++ crlf ++ rest = [] ++ crlf ++ rest from rfl,
        takeLine_of_oneLine blank]
      rfl
  | cons h more inductionHypothesis =>
      intro fuel plain enough
      obtain ⟨fuel, rfl⟩ := Nat.exists_eq_succ_of_ne_zero (Nat.ne_of_gt (Nat.zero_lt_of_lt enough))
      have here : PlainField h := plain h List.mem_cons_self
      have later : ∀ h ∈ more, PlainField h :=
        fun h member => plain h (List.mem_cons_of_mem _ member)
      have shape : fieldLines (h :: more) ++ crlf ++ rest =
          (h.name ++ str ": " ++ h.value) ++ crlf ++ (fieldLines more ++ crlf ++ rest) := by
        simp [fieldLines]
      have some_ : h.name ++ str ": " ++ h.value ≠ [] := by
        intro nothing
        have none_ := (List.append_eq_nil_iff.mp (List.append_eq_nil_iff.mp nothing).1).2
        exact absurd none_ (by decide)
      unfold takeFields
      rw [shape, takeLine_of_oneLine here.line, Option.bind_some, if_neg some_,
        inductionHypothesis later (Nat.lt_of_succ_lt_succ enough), readField_of_plain here]
      rfl

/-- A text without line feeds is one line. -/
theorem oneLine_of_notMem {s : Bytes} (clean : 0x0a ∉ s) : OneLine s := by
  refine Bool.eq_false_iff.mpr fun occurs => clean ?_
  obtain ⟨before, after, rfl⟩ := (occursIn_iff crlf).mp occurs
  simp [crlf]

theorem trim_of_ends {s : Bytes} (front : ∀ b ∈ s.head?, isTrimmed b = false)
    (back : ∀ b ∈ s.getLast?, isTrimmed b = false) : trim s = s := by
  have kept {s : Bytes} (front : ∀ b ∈ s.head?, isTrimmed b = false) :
      s.dropWhile isTrimmed = s := by
    cases s with
    | nil => rfl
    | cons b rest => exact List.dropWhile_cons_of_neg (by simp [front b rfl])
  unfold trim
  rw [kept front, kept (by simpa using back), List.reverse_reverse]

theorem plainField_length (n : Nat) : PlainField ⟨str "Content-Length", decimal n⟩ where
  name := by
    show (0x3a : UInt8) ∉ str "Content-Length"
    decide
  line := by
    refine oneLine_of_notMem fun member => ?_
    obtain fixed | digit := List.mem_append.mp member
    · have absent : (0x0a : UInt8) ∉ str "Content-Length" ++ str ": " := by decide
      exact absent fixed
    · exact absurd (isDigit_of_mem_decimal digit) (by decide)
  value := by
    have solid : ∀ b ∈ decimal n, isTrimmed b = false := by
      intro b member
      have digit := isDigit_of_mem_decimal member
      refine Bool.eq_false_iff.mpr fun blank => ?_
      unfold isTrimmed at blank
      simp only [Bool.or_eq_true, decide_eq_true_eq] at blank
      obtain rfl | rfl := blank
      · exact absurd digit (by decide)
      · exact absurd digit (by decide)
    exact trim_of_ends (fun b first => solid b (List.mem_of_mem_head? first))
      fun b last => solid b (List.mem_of_mem_getLast? last)

theorem plainField_meant {req : HttpRequest} (plain : PlainRequest req) :
    ∀ h ∈ req.headers ++ addedFields req, PlainField h := by
  intro h member
  obtain own | added := List.mem_append.mp member
  · exact plain.fields h own
  · unfold addedFields at added
    obtain length | tag := List.mem_append.mp added
    · split at length
      · exact List.mem_singleton.mp length ▸ plainField_length _
      · cases length
    · split at tag
      · exact List.mem_singleton.mp tag ▸ plain.requestId
      · cases tag

/-- The announced length is that of the body. -/
theorem announced_meant {req : HttpRequest} (plain : PlainRequest req) :
    announced (req.headers ++ addedFields req) = req.body.length := by
  unfold announced httpHeader
  cases own : req.headers.find? fun h => ciEquals h.name (str "Content-Length") with
  | some h =>
      have named : ciEquals h.name (str "Content-Length") = true := by
        simpa using List.find?_some own
      rw [List.find?_append, own, Option.some_or, Option.map_some, Option.getD_some,
        plain.length h (List.mem_of_find?_eq_some own) named, digitsValue_decimal]
  | none =>
      have absent : (req.headers.any fun h => ciEquals h.name (str "Content-Length")) = false := by
        refine Bool.eq_false_iff.mpr fun there => ?_
        obtain ⟨h, member, named⟩ := List.any_eq_true.mp there
        exact List.find?_eq_none.mp own h member named
      have other : ciEquals (str "X-Request-Id") (str "Content-Length") = false := by decide
      have same : ciEquals (str "Content-Length") (str "Content-Length") = true := by decide
      rw [List.find?_append, own, Option.none_or]
      unfold addedFields
      rw [absent]
      by_cases empty : req.body = []
      · have nothing : (decide (req.body ≠ []) && !false) = false := by simp [empty]
        rw [nothing, empty]
        simp only [Bool.false_eq_true, if_false, List.nil_append]
        split_ifs <;> simp [other, digitsValue]
      · have some_ : (decide (req.body ≠ []) && !false) = true := by simp [empty]
        rw [some_, if_pos rfl, List.singleton_append, List.find?_cons_of_pos (by simpa using same),
          Option.map_some, Option.getD_some, digitsValue_decimal]

/-- A server that has a request before it takes exactly that request. -/
theorem takeRequest_of_plain {req : HttpRequest} {wire : Bytes} (plain : PlainRequest req)
    (built : httpBuildRequest req = .ok wire) (more : Bytes) :
    takeRequest (wire ++ more) = some (meant req, more) := by
  have shape : wire ++ more =
      (req.method ++ str " " ++ (if req.path = [] then str "/" else req.path) ++ str " HTTP/1.1") ++
        crlf ++ (fieldLines (req.headers ++ addedFields req) ++ crlf ++ (req.body ++ more)) := by
    rw [wire_of_httpBuildRequest built]
    simp only [List.append_assoc]
  have enough : (req.headers ++ addedFields req).length <
      (fieldLines (req.headers ++ addedFields req) ++ crlf ++ (req.body ++ more)).length := by
    have each : ∀ fields : List HttpHeader, fields.length ≤ (fieldLines fields).length := by
      intro fields
      induction fields with
      | nil => exact Nat.le_refl _
      | cons h rest inductionHypothesis =>
          simp only [fieldLines, List.flatMap_cons, List.length_cons, List.length_append] at *
          have two : crlf.length = 2 := rfl
          omega
    have least := each (req.headers ++ addedFields req)
    have two : crlf.length = 2 := rfl
    simp only [List.length_append] at *
    omega
  have target : 0x20 ∉ (if req.path = [] then str "/" else req.path) := by
    split
    · decide
    · exact plain.target
  have line : req.method ++ str " " ++ (if req.path = [] then str "/" else req.path) ++
      str " HTTP/1.1" = req.method ++ 0x20 :: ((if req.path = [] then str "/" else req.path) ++
        0x20 :: str "HTTP/1.1") := by
    simp only [List.append_assoc]
    rfl
  obtain ⟨method, behind⟩ := cut_at plain.method
    ((if req.path = [] then str "/" else req.path) ++ 0x20 :: str "HTTP/1.1")
  obtain ⟨path, version⟩ := cut_at target (str "HTTP/1.1")
  unfold takeRequest
  rw [shape, takeLine_of_oneLine plain.line, Option.bind_some]
  dsimp only
  rw [takeFields_fieldLines _ _ (plainField_meant plain) enough, Option.bind_some]
  dsimp only
  rw [announced_meant plain, if_neg (by simp), line, method, behind, path, version, List.take_left,
    List.drop_left]
  rfl

/-! ### A part of a request is none -/

theorem takeLine_append {s line rest : Bytes} (taken : takeLine s = some (line, rest))
    (more : Bytes) : takeLine (s ++ more) = some (line, rest ++ more) := by
  obtain ⟨i, found, cut⟩ := Option.map_eq_some_iff.mp taken
  have inside : i + 2 ≤ s.length := indexOf_add_length_le (by decide) found
  cases cut
  unfold takeLine
  rw [indexOf_append more found, Option.map_some, List.take_append_of_le_length (by omega),
    List.drop_append_of_le_length inside]

theorem takeFields_append (more : Bytes) (extra : Nat) : ∀ {fuel : Nat} {s : Bytes}
    {fields : List HttpHeader} {rest : Bytes}, takeFields fuel s = some (fields, rest) →
      takeFields (fuel + extra) (s ++ more) = some (fields, rest ++ more) := by
  intro fuel
  induction fuel with
  | zero =>
      intro s fields rest taken
      cases taken
  | succ fuel inductionHypothesis =>
      intro s fields rest taken
      obtain ⟨⟨line, behind⟩, cut, further⟩ := Option.bind_eq_some_iff.mp taken
      rw [Nat.add_right_comm]
      unfold takeFields
      rw [takeLine_append cut more, Option.bind_some]
      dsimp only at further ⊢
      split at further
      · next blank =>
          cases further
          rw [if_pos blank]
      · next some_ =>
          obtain ⟨⟨others, after⟩, later, same⟩ := Option.map_eq_some_iff.mp further
          cases same
          rw [if_neg some_, inductionHypothesis later]
          rfl

/-- What is taken from a stream is taken from a longer one. -/
theorem takeRequest_append {s rest : Bytes} {got : Received}
    (taken : takeRequest s = some (got, rest)) (more : Bytes) :
    takeRequest (s ++ more) = some (got, rest ++ more) := by
  obtain ⟨⟨line, behind⟩, cut, further⟩ := Option.bind_eq_some_iff.mp taken
  obtain ⟨⟨fields, body⟩, head, last⟩ := Option.bind_eq_some_iff.mp further
  dsimp only at head last
  split at last
  · cases last
  · next whole =>
      have enough : announced fields ≤ body.length := Nat.le_of_not_lt whole
      unfold takeRequest
      rw [takeLine_append cut more, Option.bind_some]
      dsimp only
      rw [List.length_append, takeFields_append more more.length head, Option.bind_some]
      dsimp only
      rw [List.length_append, if_neg (by omega), List.take_append_of_le_length enough,
        List.drop_append_of_le_length enough]
      cases last
      rfl

/-- What writes bring of a request to the other side. -/
def sentOf : Bytes → List (Except Failure Nat) → Bytes
  | _, [] => []
  | _, .error _ :: _ => []
  | wire, .ok sent :: rest =>
      if sent = 0 then [] else wire.take sent ++ sentOf (wire.drop sent) rest

theorem writeAll_ok {left sent : Nat} (more : 0 < left) (some_ : sent ≠ 0)
    (rest : List (Except Failure Nat)) :
    HttpParser.writeAll left (.ok sent :: rest) = HttpParser.writeAll (left - sent) rest := by
  obtain ⟨left, rfl⟩ := Nat.exists_eq_succ_of_ne_zero (Nat.ne_of_gt more)
  exact if_neg some_

theorem sentOf_nil (sends : List (Except Failure Nat)) : sentOf [] sends = [] := by
  induction sends with
  | nil => rfl
  | cons send sends inductionHypothesis =>
      cases send with
      | error e => rfl
      | ok sent =>
          unfold sentOf
          rw [List.drop_nil, inductionHypothesis]
          simp

/-- What is sent is a part of the request, and all of it exactly when writing succeeds. -/
theorem sentOf_spec (sends : List (Except Failure Nat)) : ∀ wire : Bytes,
    ∃ unsent, wire = sentOf wire sends ++ unsent ∧
      (HttpParser.writeAll wire.length sends = .ok () ↔ unsent = []) := by
  induction sends with
  | nil =>
      intro wire
      refine ⟨wire, rfl, ?_⟩
      cases wire with
      | nil => exact ⟨fun _ => rfl, fun _ => rfl⟩
      | cons b rest =>
          unfold HttpParser.writeAll
          simp
  | cons send sends inductionHypothesis =>
      intro wire
      by_cases all : wire = []
      · subst all
        have nothing : sentOf [] (send :: sends) = [] := sentOf_nil _
        exact ⟨[], by rw [nothing]; rfl, fun _ => rfl, fun _ => rfl⟩
      · have some_ : wire.length = wire.length - 1 + 1 :=
          (Nat.succ_pred_eq_of_pos (List.length_pos_iff.mpr all)).symm
        cases send with
        | error e =>
            refine ⟨wire, rfl, ?_⟩
            rw [some_]
            unfold HttpParser.writeAll
            simp [all]
        | ok sent =>
            by_cases none_ : sent = 0
            · subst none_
              refine ⟨wire, rfl, ?_⟩
              rw [some_]
              unfold HttpParser.writeAll
              simp [all]
            · obtain ⟨unsent, cut, ends⟩ := inductionHypothesis (wire.drop sent)
              refine ⟨unsent, ?_, ?_⟩
              · unfold sentOf
                rw [if_neg none_, List.append_assoc, ← cut, List.take_append_drop]
              · rw [writeAll_ok (List.length_pos_iff.mpr all) none_, ← ends, List.length_drop]

/-- **A server takes a request exactly when all of it was sent**, and then it takes the request
that was meant; nothing that is cut off is mistaken for a request, and an exchange that returns an
answer has sent all of it. -/
theorem request_arrives_iff {req : HttpRequest} {wire : Bytes} (plain : PlainRequest req)
    (built : httpBuildRequest req = .ok wire) (sends : List (Except Failure Nat)) :
    (∀ got rest, takeRequest (sentOf wire sends) = some (got, rest) ↔
      HttpParser.writeAll wire.length sends = .ok () ∧ got = meant req ∧ rest = []) ∧
    ∀ reads limit answer, HttpParser.httpExchange req sends reads limit = .ok answer →
      takeRequest (sentOf wire sends) = some (meant req, []) := by
  obtain ⟨unsent, split_, all⟩ := sentOf_spec sends wire
  have arrives := takeRequest_of_plain plain built []
  rw [List.append_nil] at arrives
  have taken_iff : ∀ got rest, takeRequest (sentOf wire sends) = some (got, rest) ↔
      HttpParser.writeAll wire.length sends = .ok () ∧ got = meant req ∧ rest = [] := by
    intro got rest
    rw [all]
    constructor
    · intro taken
      have same := takeRequest_append taken unsent
      rw [← split_, arrives] at same
      obtain ⟨rfl, nothing⟩ := Prod.mk.inj (Option.some.inj same)
      obtain ⟨rfl, rfl⟩ := List.append_eq_nil_iff.mp nothing.symm
      exact ⟨rfl, rfl, rfl⟩
    · rintro ⟨rfl, rfl, rfl⟩
      rw [List.append_nil] at split_
      rw [← split_, arrives]
  refine ⟨taken_iff, fun reads limit answer exchanged => (taken_iff _ _).mpr ⟨?_, rfl, rfl⟩⟩
  unfold HttpParser.httpExchange at exchanged
  rw [built] at exchanged
  dsimp only at exchanged
  cases written : HttpParser.writeAll wire.length sends with
  | error e =>
      rw [written] at exchanged
      cases exchanged
  | ok done => rfl

/-- A request with a body, under an id. -/
def postHello : HttpRequest :=
  ⟨str "POST", str "/v1/messages", [⟨str "Host", str "api.example"⟩], str "\r\n\r\nhello",
    str "r-1"⟩

theorem plain_postHello : PlainRequest postHello where
  method := by decide
  target := by decide
  line := by decide
  fields := by
    intro h member
    obtain rfl := List.mem_singleton.mp member
    exact ⟨by decide, by decide, by decide⟩
  length := by
    intro h member named
    obtain rfl := List.mem_singleton.mp member
    exact absurd named (by decide)
  requestId := ⟨by decide, by decide, by decide⟩

/-- Sent in two writes the request is taken, and of the first write alone no request is. -/
theorem request_arrives_iff_hello : ∃ wire, httpBuildRequest postHello = .ok wire ∧
    takeRequest (sentOf wire [.ok 60, .ok 300]) = some (meant postHello, []) ∧
      takeRequest (sentOf wire [.ok 60, .error (.of .eNetTimeout)]) ≠
        some (meant postHello, []) := by
  obtain ⟨wire, built, long⟩ : ∃ wire, httpBuildRequest postHello = .ok wire ∧ wire.length = 96 :=
    ⟨_, rfl, by decide +kernel⟩
  refine ⟨wire, built, ?_, fun taken => ?_⟩
  · refine ((request_arrives_iff plain_postHello built _).1 _ _).mpr ⟨?_, rfl, rfl⟩
    rw [long]
    rfl
  · have sent := (((request_arrives_iff plain_postHello built _).1 _ _).mp taken).1
    rw [long] at sent
    cases sent

end Opencodepp.Net
