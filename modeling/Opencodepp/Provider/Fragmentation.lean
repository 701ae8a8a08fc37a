import Mathlib.Data.List.Perm.Basic
import Opencodepp.Provider.AnthropicStream
import Opencodepp.Provider.Stitching
import Opencodepp.Provider.Factory

/-!
# Calls cut into pieces

The arguments of a tool call may be cut anywhere, and the pieces of several calls may arrive in
any order that keeps the pieces of each.  Whatever was cut and interleaved, the finished calls are
the same (`calls_stitched`).
-/

set_option autoImplicit false

namespace Opencodepp.Provider

open Opencodepp.Core
open Opencodepp.Library
open Opencodepp.Library.OrderedMap
open Opencodepp.Util

/-- A tool call whose arguments arrive in pieces, under an index that is exact as a number. -/
structure SplitCall where
  index : Nat
  exact_ : index < 2 ^ 53
  id : Bytes
  name : Bytes
  pieces : List Bytes

namespace SplitCall

/-- The call with its pieces put together. -/
def whole (call : SplitCall) : ToolCallDone := ⟨call.id, call.name, call.pieces.flatten⟩

/-- The key of the call in the adapters. -/
def key (call : SplitCall) : UInt64 := UInt64.ofNat call.index

end SplitCall

/-- The value carries this index. -/
def hasIndex (n : Nat) (v : JVal) : Bool := v.findNumber (str "index") = some (n : Rat)

theorem toUInt64_natCast {n : Nat} (small : n < 2 ^ 53) : toUInt64 (n : Rat) = UInt64.ofNat n := by
  unfold toUInt64
  rw [Rat.num_natCast, Rat.den_natCast]
  congr 1
  have whole : (Int.tdiv (n : Int) ((1 : Nat) : Int)) = n := Int.tdiv_one _
  rw [whole]
  omega

theorem getNum_of_hasIndex {n : Nat} {v : JVal} (small : n < 2 ^ 53) (has : hasIndex n v = true) :
    getNum v "index" = UInt64.ofNat n := by
  have found : v.findNumber (str "index") = some (n : Rat) := of_decide_eq_true has
  unfold getNum
  rw [found]
  exact toUInt64_natCast small

theorem ofNat_inj {n m : Nat} (small : n < 2 ^ 53) (small' : m < 2 ^ 53)
    (same : UInt64.ofNat n = UInt64.ofNat m) : n = m := by
  have values := congrArg UInt64.toNat same
  rw [UInt64.toNat_ofNat', UInt64.toNat_ofNat'] at values
  omega

theorem hasIndex_unique {n m : Nat} {v : JVal} (has : hasIndex n v = true)
    (has' : hasIndex m v = true) : n = m := by
  have found : v.findNumber (str "index") = some (n : Rat) := of_decide_eq_true has
  have found' : v.findNumber (str "index") = some (m : Rat) := of_decide_eq_true has'
  rw [found] at found'
  exact_mod_cast Option.some.inj found'

/-- A value with an exact index is filed under the key of a call exactly when it carries the index
of the call. -/
theorem getNum_eq_key_iff {call : SplitCall} {v : JVal} {n : Nat} (small : n < 2 ^ 53)
    (has : hasIndex n v = true) :
    getNum v "index" = call.key ↔ hasIndex call.index v = true := by
  rw [getNum_of_hasIndex small has]
  constructor
  · intro same
    rw [← ofNat_inj small call.exact_ same]
    exact has
  · intro has'
    rw [hasIndex_unique has has']
    rfl

/-! ## Chat completions -/

namespace OpenAi

/-- The name a fragment brings, and the piece of the arguments. -/
def nameOf (tc : JVal) : Bytes := ((getObj tc "function").map (getStr · "name")).getD []

def argumentsOf (tc : JVal) : Bytes := ((getObj tc "function").map (getStr · "arguments")).getD []

/-- Fragments that bring a call: the id and the name come with the first. -/
structure Brings (call : SplitCall) (tcs : List JVal) : Prop where
  pieces : tcs.map argumentsOf = call.pieces
  named : tcs.map (fun tc => (getStr tc "id", nameOf tc)) =
    (call.id, call.name) :: List.replicate (call.pieces.length - 1) ([], [])

/-- Fragments of these calls, in an order that keeps those of each. -/
structure Interleaves (calls : List SplitCall) (tcs : List JVal) : Prop where
  indexed : ∀ tc ∈ tcs, ∃ call ∈ calls, hasIndex call.index tc = true
  brings : ∀ call ∈ calls, Brings call (tcs.filter (hasIndex call.index))

/-- A stream that brings the calls by the chunk that finishes the message. -/
def Delivers (calls : List SplitCall) (frames : List StreamFrame) : Prop :=
  ∃ before finish after d, frames = before ++ finish :: after ∧
    (∀ e ∈ chunksOf before, finishes e = false) ∧ chunkOf finish = some d ∧ finishes d = true ∧
    Interleaves calls ((chunksOf before ++ [d]).flatMap fragments)

theorem mergeFragment_eq (tc : JVal) (old : Option PendingTool) : mergeFragment tc old =
    ⟨if getStr tc "id" ≠ [] && (old.getD .empty).id = [] then getStr tc "id"
        else (old.getD .empty).id,
      (old.getD .empty).name ++ nameOf tc, (old.getD .empty).args ++ argumentsOf tc⟩ := by
  unfold mergeFragment nameOf argumentsOf
  dsimp only
  by_cases fills : (getStr tc "id" ≠ [] && (old.getD .empty).id = []) = true
  · rw [if_pos fills, if_pos fills]
    cases getObj tc "function" <;> simp
  · rw [if_neg fills, if_neg fills]
    cases getObj tc "function" <;> simp

/-- Later fragments add to the arguments. -/
theorem track_later {i : UInt64} (later : List JVal)
    (bare : ∀ tc ∈ later, getStr tc "id" = [] ∧ nameOf tc = [])
    (filed : ∀ tc ∈ later, indexOf tc = i) : ∀ pt : PendingTool,
      track i (later.map fragmentUpdate) (some pt) =
        some ⟨pt.id, pt.name, pt.args ++ (later.map argumentsOf).flatten⟩ := by
  induction later with
  | nil =>
      intro pt
      simp
  | cons tc rest inductionHypothesis =>
      intro pt
      obtain ⟨noId, noName⟩ := bare tc List.mem_cons_self
      have here : (fragmentUpdate tc).1 = i := filed tc List.mem_cons_self
      rw [List.map_cons, track_cons, if_pos here]
      show track i _ (some (mergeFragment tc (some pt))) = _
      rw [mergeFragment_eq, inductionHypothesis
        (fun other member => bare other (List.mem_cons_of_mem _ member))
        (fun other member => filed other (List.mem_cons_of_mem _ member))]
      simp [noId, noName]

/-- What the fragments of a call come to. -/
theorem assembled_of_brings {call : SplitCall} {tcs : List JVal} (brings : Brings call tcs)
    (filed : ∀ tc ∈ tcs, indexOf tc = call.key) :
    assembled call.key tcs = some ⟨call.id, call.name, call.pieces.flatten⟩ := by
  obtain ⟨first, later, rfl, same, others⟩ := List.map_eq_cons_iff.mp brings.named
  obtain ⟨id, name⟩ := Prod.mk.inj same
  have bare : ∀ tc ∈ later, getStr tc "id" = [] ∧ nameOf tc = [] := by
    intro tc member
    have listed := List.mem_map_of_mem (f := fun tc => (getStr tc "id", nameOf tc)) member
    rw [others] at listed
    exact Prod.mk.inj (List.eq_of_mem_replicate listed)
  have here : (fragmentUpdate first).1 = call.key := filed first List.mem_cons_self
  unfold assembled
  rw [List.map_cons, track_cons, if_pos here]
  show track call.key _ (some (mergeFragment first none)) = _
  rw [mergeFragment_eq, track_later later bare
    fun other member => filed other (List.mem_cons_of_mem _ member)]
  have pieces := brings.pieces
  rw [List.map_cons] at pieces
  rw [← pieces, id, name]
  by_cases none_ : call.id = [] <;> simp [PendingTool.empty, none_]

/-- Only the fragments of the index count. -/
theorem assembled_filter (i : UInt64) (tcs : List JVal) :
    assembled i tcs = assembled i (tcs.filter fun tc => indexOf tc = i) := by
  refine track_congr ?_ none
  rw [List.filter_map, List.filter_map, List.filter_filter]
  refine congrArg (List.map fragmentUpdate) (List.filter_congr fun tc _ => ?_)
  show decide (indexOf tc = i) = (decide (indexOf tc = i) && decide (indexOf tc = i))
  rw [Bool.and_self]

/-- **What interleaved fragments are gathered to**: the calls in order. -/
theorem gather_interleaved {calls : List SplitCall} {tcs : List JVal}
    (ascending : calls.Pairwise fun call call' => call.index < call'.index)
    (interleaves : Interleaves calls tcs) :
    gather [] tcs =
      calls.map fun call => (call.key, ⟨call.id, call.name, call.pieces.flatten⟩) := by
  have ordered : Ascending (calls.map fun call =>
      (call.key, (⟨call.id, call.name, call.pieces.flatten⟩ : PendingTool))) := by
    refine List.pairwise_map.mpr (ascending.imp fun {call call'} less => ?_)
    have small := call.exact_
    have small' := call'.exact_
    show UInt64.ofNat call.index < UInt64.ofNat call'.index
    rw [UInt64.lt_iff_toNat_lt, UInt64.toNat_ofNat', UInt64.toNat_ofNat']
    omega
  refine ext_of_lookup (ascending_gather tcs List.Pairwise.nil) ordered fun i => ?_
  rw [lookup_gather_nil]
  by_cases used : ∃ call ∈ calls, call.key = i
  · obtain ⟨call, member, rfl⟩ := used
    have entries := filter_key call.key ordered
    have found : (calls.map fun call => (call.key,
        (⟨call.id, call.name, call.pieces.flatten⟩ : PendingTool))).lookup call.key =
          some ⟨call.id, call.name, call.pieces.flatten⟩ := by
      have here : (call.key, (⟨call.id, call.name, call.pieces.flatten⟩ : PendingTool)) ∈
          (calls.map fun call => (call.key,
            (⟨call.id, call.name, call.pieces.flatten⟩ : PendingTool))).filter
              fun entry => entry.1 = call.key :=
        List.mem_filter.mpr ⟨List.mem_map.mpr ⟨call, member, rfl⟩, by simp⟩
      rw [entries] at here
      cases lookup : (calls.map fun call => (call.key,
          (⟨call.id, call.name, call.pieces.flatten⟩ : PendingTool))).lookup call.key with
      | none =>
          rw [lookup] at here
          cases here
      | some pt =>
          rw [lookup] at here
          exact congrArg (fun entry => some entry.2) (List.mem_singleton.mp here).symm
    have own : (tcs.filter fun tc => indexOf tc = call.key) =
        tcs.filter (hasIndex call.index) := by
      refine List.filter_congr fun tc inside => ?_
      obtain ⟨other, _, has⟩ := interleaves.indexed tc inside
      exact Bool.eq_iff_iff.mpr ((decide_eq_true_iff).trans
        (getNum_eq_key_iff other.exact_ has))
    rw [found, assembled_filter, own]
    refine assembled_of_brings (interleaves.brings call member) fun tc inside => ?_
    rw [← own] at inside
    exact of_decide_eq_true (List.mem_filter.mp inside).2
  · have absent : i ∉ tcs.map indexOf := by
      intro present
      obtain ⟨tc, inside, same⟩ := List.mem_map.mp present
      obtain ⟨call, member, has⟩ := interleaves.indexed tc inside
      exact used ⟨call, member, ((getNum_of_hasIndex call.exact_ has).symm.trans same)⟩
    have nothing : assembled i tcs = none := by
      have alone := assembled_append_of_absent [] absent
      rw [List.nil_append] at alone
      exact alone
    rw [nothing]
    refine (List.lookup_eq_none_iff.mpr fun entry member => ?_).symm
    obtain ⟨call, inside, rfl⟩ := List.mem_map.mp member
    exact bne_iff_ne.mpr fun same => used ⟨call, inside, same.symm⟩

theorem untilFinish_append {first : List JVal} {d : JVal} {rest : List JVal}
    (open_ : ∀ e ∈ first, finishes e = false) (known : finishes d = true) :
    untilFinish (first ++ d :: rest) = some (first ++ [d]) := by
  induction first with
  | nil => simp [untilFinish, known]
  | cons e others inductionHypothesis =>
      have here := open_ e List.mem_cons_self
      have later := inductionHypothesis fun other member =>
        open_ other (List.mem_cons_of_mem _ member)
      show (if finishes e then some [e] else (untilFinish (others ++ d :: rest)).map (e :: ·)) = _
      rw [here, later]
      rfl

theorem calls_of_delivers {calls : List SplitCall} {frames : List StreamFrame}
    (ascending : calls.Pairwise fun call call' => call.index < call'.index)
    (delivers : Delivers calls frames) (st : State) :
    callsIn (heard (Adapter.openAi st).resetStream frames) = calls.map SplitCall.whole := by
  obtain ⟨before, finish, after, d, rfl, open_, isChunk, known, interleaves⟩ := delivers
  have emitted : heard (Adapter.openAi st).resetStream (before ++ finish :: after) =
      (Machine.feed parseFrame .reset (before ++ finish :: after)).2 := heard_openAi _ _
  have decided_ : decided (Machine.feed parseFrame .reset (before ++ finish :: after)).2 =
      verdict .reset (chunksOf (before ++ finish :: after)) := decided_feed _ rfl rfl
  have decides := congrArg Prod.fst decided_
  have chunks : chunksOf (before ++ finish :: after) = chunksOf before ++ d :: chunksOf after := by
    unfold chunksOf
    rw [List.filterMap_append, List.filterMap_cons_some isChunk]
  rw [emitted]
  refine decides.trans ?_
  unfold verdict
  rw [chunks, untilFinish_append open_ known]
  show (gather [] _).map _ = _
  rw [gather_interleaved ascending interleaves, List.map_map]
  rfl

end OpenAi

/-! ## Content blocks -/

namespace Anthropic

/-- The value of a frame that takes a step, and the step. -/
def blockValue (frame : StreamFrame) : Option (JVal × BlockStep) :=
  (parseJson frame.data).toOption.bind fun d => (stepOf frame.event d).map fun step => (d, step.2)

/-- A stream that brings the calls in blocks: started, fed and stopped under their indices.  The
steps of other blocks are only stops. -/
structure Delivers (calls : List SplitCall) (frames : List StreamFrame) : Prop where
  indexed : ∀ v ∈ frames.filterMap blockValue, ∃ n < 2 ^ 53, hasIndex n v.1 = true ∧
    ((∃ call ∈ calls, call.index = n) ∨ v.2 = .stop)
  brings : ∀ call ∈ calls,
    ((frames.filterMap blockValue).filter fun v => hasIndex call.index v.1).map Prod.snd =
      .start call.id call.name :: (call.pieces.map .fragment ++ [.stop])

theorem stepOf_index {event : Bytes} {d : JVal} {step : UInt64 × BlockStep}
    (found : stepOf event d = some step) : step.1 = getNum d "index" := by
  have index_of_bind {member : Option JVal} {pick : JVal → Option (UInt64 × BlockStep)}
      (each : ∀ v step, pick v = some step → step.1 = getNum d "index")
      (found : member.bind pick = some step) : step.1 = getNum d "index" := by
    obtain ⟨v, -, picked⟩ := Option.bind_eq_some_iff.mp found
    exact each v step picked
  unfold stepOf at found
  split at found
  · refine index_of_bind (fun v step picked => ?_) found
    split at picked
    · cases picked
      rfl
    · cases picked
  · split at found
    · refine index_of_bind (fun v step picked => ?_) found
      split at picked
      · cases picked
        rfl
      · cases picked
    · split at found
      · cases found
        rfl
      · cases found

/-- A step is filed under the index of its value. -/
theorem blockStep_eq (frame : StreamFrame) :
    blockStep frame = (blockValue frame).map fun v => (getNum v.1 "index", v.2) := by
  unfold blockStep blockValue
  cases (parseJson frame.data).toOption with
  | none => rfl
  | some d =>
      rw [Option.bind_some, Option.bind_some]
      cases step : stepOf frame.event d with
      | none => rfl
      | some step' =>
          rw [Option.map_some, Option.map_some, ← stepOf_index step]

theorem blockSteps_eq (frames : List StreamFrame) : frames.filterMap blockStep =
    (frames.filterMap blockValue).map fun v => (getNum v.1 "index", v.2) := by
  rw [List.map_filterMap]
  exact List.filterMap_congr fun frame _ => blockStep_eq frame

/-! ### The calls under one index -/

/-- The calls that steps close, with their indices. -/
def closedAt (before : List (UInt64 × BlockStep)) :
    List (UInt64 × BlockStep) → List (UInt64 × ToolCallDone)
  | [] => []
  | step :: rest =>
      ((closing before step).map fun call => (step.1, call)).toList ++
        closedAt (before ++ [step]) rest

/-- The calls the steps of one block close, from what is open. -/
def closedFrom : Option PendingTool → List BlockStep → List ToolCallDone
  | _, [] => []
  | old, step :: rest =>
      (if step = .stop then (old.map PendingTool.done).toList else []) ++
        closedFrom (step.apply old) rest

theorem closedAt_snd (steps : List (UInt64 × BlockStep)) : ∀ before : List (UInt64 × BlockStep),
    (closedAt before steps).map Prod.snd = closedCalls before steps := by
  induction steps with
  | nil => exact fun _ => rfl
  | cons step rest inductionHypothesis =>
      intro before
      unfold closedAt closedCalls
      rw [List.map_append, inductionHypothesis]
      cases closing before step <;> rfl

theorem closing_eq (before : List (UInt64 × BlockStep)) (step : UInt64 × BlockStep) :
    (closing before step).toList =
      if step.2 = .stop then ((openBlock step.1 before).map PendingTool.done).toList else [] := by
  obtain ⟨i, s⟩ := step
  cases s <;> rfl

/-- **The blocks of other indices make no difference.** -/
theorem closedAt_filter (i : UInt64) (steps : List (UInt64 × BlockStep)) :
    ∀ before : List (UInt64 × BlockStep),
      (closedAt before steps).filter (fun closed => closed.1 = i) =
        (closedFrom (openBlock i before)
          ((steps.filter fun step => step.1 = i).map Prod.snd)).map fun call => (i, call) := by
  induction steps with
  | nil => exact fun _ => rfl
  | cons step rest inductionHypothesis =>
      intro before
      unfold closedAt
      rw [List.filter_append, inductionHypothesis, openBlock_concat]
      have keyed : ((closing before step).map fun call => (step.1, call)).toList =
          (closing before step).toList.map fun call => (step.1, call) := by
        cases closing before step <;> rfl
      rw [keyed, closing_eq]
      by_cases here : step.1 = i
      · have inside : (step :: rest).filter (fun step => step.1 = i) =
            step :: rest.filter fun step => step.1 = i :=
          List.filter_cons_of_pos (by simpa using here)
        rw [if_pos here.symm, inside, List.map_cons]
        show _ = ((if step.2 = .stop then ((openBlock i before).map PendingTool.done).toList
          else []) ++ closedFrom _ _).map _
        rw [List.map_append, ← here]
        refine congrArg (· ++ _) (List.filter_eq_self.mpr fun closed member => ?_)
        obtain ⟨call, -, rfl⟩ := List.mem_map.mp member
        simp
      · have outside : (step :: rest).filter (fun step => step.1 = i) =
            rest.filter fun step => step.1 = i :=
          List.filter_cons_of_neg (by simpa using here)
        have other : ¬i = step.1 := fun same => here same.symm
        rw [if_neg other, outside]
        have none_ : (List.map (fun call => (step.1, call))
            (if step.2 = .stop then ((openBlock step.1 before).map PendingTool.done).toList
              else [])).filter (fun closed => closed.1 = i) = [] := by
          refine List.filter_eq_nil_iff.mpr fun closed member => ?_
          obtain ⟨call, -, rfl⟩ := List.mem_map.mp member
          simpa using here
        rw [none_, List.nil_append]

theorem closedFrom_fragments (pieces : List Bytes) : ∀ pt : PendingTool,
    closedFrom (some pt) (pieces.map .fragment ++ [.stop]) =
      [⟨pt.id, pt.name, pt.args ++ pieces.flatten⟩] := by
  induction pieces with
  | nil =>
      intro pt
      simp [closedFrom, PendingTool.done]
  | cons piece rest inductionHypothesis =>
      intro pt
      show closedFrom (some ⟨pt.id, pt.name, pt.args ++ piece⟩) (rest.map .fragment ++ [.stop]) = _
      rw [inductionHypothesis]
      simp

theorem closedFrom_block (call : SplitCall) :
    closedFrom none (.start call.id call.name :: (call.pieces.map .fragment ++ [.stop])) =
      [call.whole] :=
  closedFrom_fragments call.pieces ⟨call.id, call.name, []⟩

theorem closedFrom_stops (steps : List BlockStep) (stops : ∀ step ∈ steps, step = .stop) :
    closedFrom none steps = [] := by
  induction steps with
  | nil => rfl
  | cons step rest inductionHypothesis =>
      rw [stops step List.mem_cons_self]
      exact inductionHypothesis fun other member => stops other (List.mem_cons_of_mem _ member)

/-! ### All calls -/

section Delivered

variable {calls : List SplitCall} {frames : List StreamFrame}

/-- The steps filed under the key of a call are those that carry its index. -/
theorem Delivers.steps (delivers : Delivers calls frames) {call : SplitCall}
    (member : call ∈ calls) :
    (((frames.filterMap blockStep).filter fun step => step.1 = call.key).map Prod.snd) =
      .start call.id call.name :: (call.pieces.map .fragment ++ [.stop]) := by
  rw [← delivers.brings call member, blockSteps_eq, List.filter_map, List.map_map]
  have own : (frames.filterMap blockValue).filter
      ((fun step : UInt64 × BlockStep => decide (step.1 = call.key)) ∘
        fun v => (getNum v.1 "index", v.2)) =
      (frames.filterMap blockValue).filter fun v => hasIndex call.index v.1 := by
    refine List.filter_congr fun v inside => ?_
    obtain ⟨n, small, has, -⟩ := delivers.indexed v inside
    exact Bool.eq_iff_iff.mpr (decide_eq_true_iff.trans (getNum_eq_key_iff small has))
  rw [own]
  rfl

/-- Under any other key there are only stops. -/
theorem Delivers.stops (delivers : Delivers calls frames) {i : UInt64}
    (unused : ∀ call ∈ calls, call.key ≠ i) :
    ∀ step ∈ ((frames.filterMap blockStep).filter fun step => step.1 = i).map Prod.snd,
      step = .stop := by
  intro step member
  obtain ⟨pair, inside, rfl⟩ := List.mem_map.mp member
  obtain ⟨inFrames, here⟩ := List.mem_filter.mp inside
  rw [blockSteps_eq] at inFrames
  obtain ⟨v, valued, rfl⟩ := List.mem_map.mp inFrames
  obtain ⟨n, small, has, ⟨call, among, same⟩ | stop⟩ := delivers.indexed v valued
  · refine absurd ?_ (unused call among)
    have filed : getNum v.1 "index" = i := of_decide_eq_true here
    rw [getNum_of_hasIndex small has, ← same] at filed
    exact filed
  · exact stop

theorem calls_of_delivers (ascending : calls.Pairwise fun call call' => call.index < call'.index)
    (delivers : Delivers calls frames) (st : State) :
    (callsIn (heard (Adapter.anthropic st).resetStream frames)).Perm
      (calls.map SplitCall.whole) := by
  have emitted : heard (Adapter.anthropic st).resetStream frames =
      (Machine.feed parseFrame .reset frames).2 := heard_anthropic _ _
  have distinct : ∀ call ∈ calls,
      (calls.map fun call => (call.key, call.whole)).filter (fun entry => entry.1 = call.key) =
        [(call.key, call.whole)] := by
    clear delivers emitted
    induction calls with
    | nil => exact fun _ none_ => absurd none_ List.not_mem_nil
    | cons first rest inductionHypothesis =>
        obtain ⟨less, others⟩ := List.pairwise_cons.mp ascending
        intro call member
        have apart : ∀ other ∈ rest, first.key ≠ other.key := fun other inside same =>
          absurd (ofNat_inj first.exact_ other.exact_ same) (Nat.ne_of_lt (less other inside))
        rw [List.map_cons, List.filter_cons]
        rcases List.mem_cons.mp member with here | later
        · rw [here, if_pos (by simp), List.filter_eq_nil_iff.mpr ?_]
          intro entry inside
          obtain ⟨other, among, rfl⟩ := List.mem_map.mp inside
          simpa using fun same => apart other among same.symm
        · rw [if_neg (by simpa using apart call later)]
          exact inductionHypothesis others call later
  have perm : (closedAt [] (frames.filterMap blockStep)).Perm
      (calls.map fun call => (call.key, call.whole)) := by
    refine List.perm_iff_count.mpr fun entry => ?_
    have byKey (entries : List (UInt64 × ToolCallDone)) : entries.count entry =
        (entries.filter fun other => other.1 = entry.1).count entry :=
      (List.count_filter (by simp)).symm
    rw [byKey (closedAt _ _), byKey (calls.map _), closedAt_filter]
    by_cases used : ∃ call ∈ calls, call.key = entry.1
    · obtain ⟨call, member, same⟩ := used
      rw [← same, delivers.steps member, distinct call member]
      show List.count entry ((closedFrom none _).map _) = _
      rw [closedFrom_block]
      rfl
    · have unused : ∀ call ∈ calls, call.key ≠ entry.1 := fun call member same =>
        used ⟨call, member, same⟩
      have empty : (calls.map fun call => (call.key, call.whole)).filter
          (fun other => other.1 = entry.1) = [] := by
        refine List.filter_eq_nil_iff.mpr fun other inside => ?_
        obtain ⟨call, member, rfl⟩ := List.mem_map.mp inside
        simpa using unused call member
      show List.count entry ((closedFrom none _).map _) = _
      rw [closedFrom_stops _ (delivers.stops unused), empty]
      rfl
  rw [emitted, callsIn_feed frames follows_reset, ← closedAt_snd]
  have second := perm.map Prod.snd
  rw [List.map_map] at second
  exact second

end Delivered

end Anthropic

/-! ## Both adapters -/

/-- **However the calls are cut and interleaved, the finished calls are the same**: every call
once, under its id and name and with all of its arguments.  The adapter for chat completions
emits them in the order of their indices, the one for content blocks as their blocks stop. -/
theorem calls_stitched {calls : List SplitCall}
    (ascending : calls.Pairwise fun call call' => call.index < call'.index) :
    (∀ (st : OpenAi.State) (frames : List StreamFrame), OpenAi.Delivers calls frames →
      callsIn (heard (Adapter.openAi st).resetStream frames) = calls.map SplitCall.whole) ∧
    ∀ (st : Anthropic.State) (frames : List StreamFrame), Anthropic.Delivers calls frames →
      (callsIn (heard (Adapter.anthropic st).resetStream frames)).Perm
        (calls.map SplitCall.whole) :=
  ⟨fun st _ delivers => OpenAi.calls_of_delivers ascending delivers st,
    fun st _ delivers => Anthropic.calls_of_delivers ascending delivers st⟩

/-! ## Two calls -/

/-- Two calls, each cut in two. -/
def twoCalls : List SplitCall :=
  [⟨0, by decide, str "a", str "f", [str "\x7b", str "\x7d"]⟩,
    ⟨3, by decide, str "b", str "g", [str "[", str "]"]⟩]

namespace OpenAi

/-- A chunk with one fragment. -/
def fragmentFrame (index : Nat) (id name piece : String) : StreamFrame :=
  ⟨[], toJson (jsonObject [("choices", .array [jsonObject [("delta", jsonObject [("tool_calls",
    .array [jsonObject [("index", .number index), ("id", jsonStr id),
      ("function", jsonObject [("name", jsonStr name), ("arguments", jsonStr piece)])]])])]])])⟩

/-- The second call is begun first, and they take turns. -/
def twoCallsBegun : List StreamFrame :=
  [fragmentFrame 3 "b" "g" "[", fragmentFrame 0 "a" "f" "\x7b", fragmentFrame 3 "" "" "]",
    fragmentFrame 0 "" "" "\x7d"]

def callsFinished : StreamFrame :=
  ⟨[], toJson (jsonObject [("choices", .array [jsonObject [("finish_reason",
    jsonStr "tool_calls")]])])⟩

theorem delivers_twoCalls : Delivers twoCalls (twoCallsBegun ++ [callsFinished]) := by
  have finishing : (chunkOf callsFinished).map (fun d => (finishes d, (fragments d).isEmpty)) =
      some (true, true) := by decide +kernel
  obtain ⟨d, isChunk, both⟩ := Option.map_eq_some_iff.mp finishing
  obtain ⟨known, bare⟩ := Prod.mk.inj both
  refine ⟨twoCallsBegun, callsFinished, [], d, rfl, by decide +kernel, isChunk, known, ?_⟩
  rw [List.flatMap_append, List.flatMap_singleton, List.isEmpty_iff.mp bare, List.append_nil]
  refine ⟨by decide +kernel, fun call member => ?_⟩
  rcases List.mem_cons.mp member with rfl | member
  · exact ⟨by decide +kernel, by decide +kernel⟩
  · rw [List.mem_singleton.mp member]
    exact ⟨by decide +kernel, by decide +kernel⟩

end OpenAi

namespace Anthropic

/-- A frame of a block. -/
def blockFrame (event : String) (index : Nat) (rest : List (String × JVal)) : StreamFrame :=
  ⟨str event, toJson (jsonObject (("index", .number index) :: rest))⟩

def startFrame (index : Nat) (id name : String) : StreamFrame :=
  blockFrame "content_block_start" index [("content_block",
    jsonObject [("type", jsonStr "tool_use"), ("id", jsonStr id), ("name", jsonStr name)])]

def deltaFrame (index : Nat) (piece : String) : StreamFrame :=
  blockFrame "content_block_delta" index [("delta",
    jsonObject [("type", jsonStr "input_json_delta"), ("partial_json", jsonStr piece)])]

def stopFrame (index : Nat) : StreamFrame := blockFrame "content_block_stop" index []

/-- Two blocks that take turns, and the end of a third. -/
def twoBlocks : List StreamFrame :=
  [startFrame 3 "b" "g", startFrame 0 "a" "f", deltaFrame 3 "[", deltaFrame 0 "\x7b", stopFrame 1,
    deltaFrame 3 "]", stopFrame 3, deltaFrame 0 "\x7d", stopFrame 0]

theorem delivers_twoCalls : Delivers twoCalls twoBlocks where
  indexed v member := by
    have listed : ∀ v ∈ twoBlocks.filterMap blockValue, ∃ n ∈ [0, 1, 3], hasIndex n v.1 = true ∧
        ((∃ call ∈ twoCalls, call.index = n) ∨ v.2 = .stop) := by decide +kernel
    obtain ⟨n, among, has, kind⟩ := listed v member
    refine ⟨n, ?_, has, kind⟩
    have small : ∀ n ∈ [0, 1, 3], n < 2 ^ 53 := by decide
    exact small n among
  brings := by
    intro call member
    rcases List.mem_cons.mp member with rfl | member
    · decide +kernel
    · rw [List.mem_singleton.mp member]
      decide +kernel

end Anthropic

theorem calls_stitched_two :
    callsIn (heard (Adapter.openAi (OpenAi.make [] [] 0 [])).resetStream
        (OpenAi.twoCallsBegun ++ [OpenAi.callsFinished])) = twoCalls.map SplitCall.whole ∧
      (callsIn (heard (Adapter.anthropic (Anthropic.make [] [] 0)).resetStream
        Anthropic.twoBlocks)).Perm (twoCalls.map SplitCall.whole) := by
  have ascending : twoCalls.Pairwise fun call call' => call.index < call'.index := by decide
  obtain ⟨completions, blocks⟩ := calls_stitched ascending
  exact ⟨completions _ _ OpenAi.delivers_twoCalls, blocks _ _ Anthropic.delivers_twoCalls⟩

end Opencodepp.Provider
