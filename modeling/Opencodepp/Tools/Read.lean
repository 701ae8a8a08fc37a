import Opencodepp.Tools.Defaults
import Opencodepp.Tools.Footprint
import Opencodepp.Tools.Glob

/-!
# The file.read and file.search tools

file.read returns a range of a file, given by three optional integers that are clamped one after
the other and then subtracted without a sign.  The numbers are doubles, and one that does not fit
a signed 64-bit integer has no defined conversion.  The clamps keep the start within the file but
not the end behind the start, so that the difference can wrap around.  `fileRead_range_iff` says
when what is returned is the range that was asked for and nothing wraps around.

file.search lists the files below a directory that a glob finds, but for those of the repository
and those that the directory ignores (`search_lists`).
-/

set_option autoImplicit false

namespace Opencodepp.Tools

open Opencodepp.Core
open Opencodepp.Library
open Opencodepp.Msg
open Opencodepp.Util

/-! ## The tool -/

/-- Whether an integer is a signed 64-bit one. -/
def FitsInt64 (i : Int) : Prop := -2 ^ 63 ≤ i ∧ i < 2 ^ 63

instance (i : Int) : Decidable (FitsInt64 i) := inferInstanceAs (Decidable (_ ∧ _))

/-- The conversion of a double to a signed 64-bit integer: truncation towards zero.  It is not
defined where the result does not fit. -/
def toInt64 (q : Rat) : Option Int64 :=
  let i := q.num.tdiv q.den
  if FitsInt64 i then some (Int64.ofInt i) else none

/-- `ArgReader::get_int` on a variable with a value; there is none where the conversion is not
defined. -/
def getInt (key : Bytes) (args : JVal) (out : Int64) : Option Int64 :=
  match args.findNumber key with
  | none => some out
  | some q => toInt64 q

/-- Where the range starts in a text of `n` bytes. -/
def readLow (n : Nat) (start : Int64) : Nat :=
  let start := if start.toInt < 0 then 0 else start.toInt
  let start := if (n : Int) < start then (n : Int) else start
  start.toNat

/-- Where the range ends in a text of `n` bytes, before the cap. -/
def readHigh (n : Nat) (stop : Int64) : Nat :=
  if 0 ≤ stop.toInt ∧ stop.toInt.toNat < n then stop.toInt.toNat else n

/-- The difference of two sizes. -/
def sizeDifference (hi lo : Nat) : Nat := (hi + 2 ^ 64 - lo) % 2 ^ 64

/-- The bytes that are returned of a text. -/
def readRange (text : Bytes) (start stop maxBytes : Int64) : Bytes :=
  let lo := readLow text.length start
  let hi := readHigh text.length stop
  let hi :=
    if 0 ≤ maxBytes.toInt ∧ maxBytes.toInt.toNat < sizeDifference hi lo then
      (lo + maxBytes.toInt.toNat) % 2 ^ 64
    else hi
  (text.drop lo).take (sizeDifference hi lo)

def fileReadId : Bytes := str "file.read"

def readError (message : Bytes) : ToolResult := textResult fileReadId .error message

/-- The file.read tool over a base directory, with the path and the range that were read from
the arguments. -/
def fileReadAt (base path : Bytes) (start stop maxBytes : Int64) (d : Disk) : ToolResult × Disk :=
  match resolveInSandbox base path with
  | none => (readError (str "path escapes the workspace: " ++ path), d)
  | some abs =>
      match readWholeFile abs d with
      | (.error _, d) => (readError (str "cannot read " ++ path), d)
      | (.ok text, d) => (textResult fileReadId .ok (readRange text start stop maxBytes), d)

/-- The file.read tool over a base directory.  Behind a conversion that is not defined anything
can come out. -/
def fileReadTool (base : Bytes) (undefined_ : ToolResult × Disk) : Tool where
  spec := fileReadSpec
  run _ inv _ d :=
    match readArgs inv.argsJson with
    | .error c => (readError (str "bad args: " ++ str c.ec.message), d)
    | .ok args =>
        match args.findString (str "path") with
        | none => (readError (str "missing required arg: path"), d)
        | some path =>
            match getInt (str "start") args 0, getInt (str "end") args (-1),
              getInt (str "max_bytes") args (-1) with
            | some start, some stop, some maxBytes => fileReadAt base path start stop maxBytes d
            | _, _, _ => undefined_

/-! ## The range that is asked for -/

/-- Where the range that is asked for starts, for want of a start at the beginning. -/
def wantedStart (start : Option Int) : Nat := (start.getD 0).toNat

/-- The bytes from the start up to the end, without an end up to the end of the text, and of
these no more than the cap. -/
def wantedRange (text : Bytes) (start stop maxBytes : Option Int) : Bytes :=
  let upTo := (stop.map Int.toNat).getD text.length
  let range := (text.take (min upTo text.length)).drop (min (wantedStart start) text.length)
  match maxBytes with
  | none => range
  | some cap => range.take cap.toNat

/-- A number that is not given, or given below zero. -/
def notNegative (given : Option Int) : Option Int := given.filter fun i => 0 ≤ i

/-! ## What is returned -/

theorem sizeDifference_of_le {hi lo : Nat} (ordered : lo ≤ hi) (fits : hi < 2 ^ 64) :
    sizeDifference hi lo = hi - lo := by
  unfold sizeDifference
  omega

/-- The difference that has no value wraps around. -/
theorem sizeDifference_of_lt {hi lo : Nat} (wraps : hi < lo) :
    sizeDifference hi lo = hi + 2 ^ 64 - lo := by
  unfold sizeDifference
  omega

theorem readLow_eq (n : Nat) {start : Int64} {asked : Option Int}
    (same : start.toInt = asked.getD 0) : readLow n start = min (wantedStart asked) n := by
  unfold readLow wantedStart
  rw [← same]
  dsimp only
  split <;> split <;> omega

theorem readHigh_le (n : Nat) (stop : Int64) : readHigh n stop ≤ n := by
  unfold readHigh
  split <;> omega

/-- The number of bytes asked of those behind the start. -/
def readCount (n lo hi : Nat) (maxBytes : Int64) : Nat :=
  if 0 ≤ maxBytes.toInt then
    if lo ≤ hi then min (hi - lo) maxBytes.toInt.toNat else maxBytes.toInt.toNat
  else if lo ≤ hi then hi - lo else n

/-- What is returned are bytes behind the start: up to the end when it is not before the start,
and otherwise all that the cap leaves. -/
theorem readRange_eq {text : Bytes} (fits : text.length < 2 ^ 63) (start stop maxBytes : Int64)
    (within : readLow text.length start ≤ text.length) :
    readRange text start stop maxBytes = (text.drop (readLow text.length start)).take
      (readCount text.length (readLow text.length start) (readHigh text.length stop)
        maxBytes) := by
  have before := readHigh_le text.length stop
  have small := Int64.toInt_lt maxBytes
  unfold readRange
  generalize readLow text.length start = lo at within ⊢
  generalize readHigh text.length stop = hi at before ⊢
  dsimp only
  unfold readCount
  have sum (given : 0 ≤ maxBytes.toInt) :
      (lo + maxBytes.toInt.toNat) % 2 ^ 64 = lo + maxBytes.toInt.toNat ∧
        sizeDifference (lo + maxBytes.toInt.toNat) lo = maxBytes.toInt.toNat := by
    refine ⟨by omega, ?_⟩
    rw [sizeDifference_of_le (Nat.le_add_right ..) (by omega)]
    exact Nat.add_sub_cancel_left ..
  by_cases ordered : lo ≤ hi
  · have difference : sizeDifference hi lo = hi - lo := sizeDifference_of_le ordered (by omega)
    by_cases capped : 0 ≤ maxBytes.toInt ∧ maxBytes.toInt.toNat < sizeDifference hi lo
    · rw [if_pos capped, if_pos capped.1, if_pos ordered, (sum capped.1).1, (sum capped.1).2]
      congr 1
      omega
    · rw [if_neg capped, difference, if_pos ordered, if_pos ordered]
      rw [difference] at capped
      congr 1
      split <;> omega
  · have difference : sizeDifference hi lo = hi + 2 ^ 64 - lo :=
      sizeDifference_of_lt (by omega)
    by_cases given : 0 ≤ maxBytes.toInt
    · -- the difference that wrapped around is more than any cap
      have capped : 0 ≤ maxBytes.toInt ∧ maxBytes.toInt.toNat < sizeDifference hi lo :=
        ⟨given, by omega⟩
      rw [if_pos capped, if_pos given, if_neg ordered, (sum given).1, (sum given).2]
    · rw [if_neg (fun capped => given capped.1), if_neg given, if_neg ordered, difference,
        List.take_of_length_le (by rw [List.length_drop]; omega),
        List.take_of_length_le (by rw [List.length_drop]; omega)]

/-- The number of bytes asked for. -/
def wantedCount (n : Nat) (start stop maxBytes : Option Int) : Nat :=
  let upTo := (stop.map Int.toNat).getD n
  let count := min upTo n - min (wantedStart start) n
  match maxBytes with
  | none => count
  | some cap => min count cap.toNat

theorem wantedRange_eq (text : Bytes) (start stop maxBytes : Option Int) :
    wantedRange text start stop maxBytes =
      (text.drop (min (wantedStart start) text.length)).take
        (wantedCount text.length start stop maxBytes) := by
  unfold wantedRange wantedCount
  dsimp only
  rw [List.drop_take]
  cases maxBytes with
  | none => rfl
  | some cap =>
      dsimp only
      rw [List.take_take, Nat.min_comm]

/-- What is returned is what was asked for when as many bytes behind the start are. -/
theorem readRange_eq_wantedRange_iff {text : Bytes} (fits : text.length < 2 ^ 63)
    {low : Int64} {start : Option Int} (same : low.toInt = start.getD 0)
    (stop maxBytes : Int64) (wantedStop wantedCap : Option Int) :
    readRange text low stop maxBytes = wantedRange text start wantedStop wantedCap ↔
      min (readCount text.length (min (wantedStart start) text.length)
        (readHigh text.length stop) maxBytes) (text.length - wantedStart start) =
      min (wantedCount text.length start wantedStop wantedCap)
        (text.length - wantedStart start) := by
  have place := readLow_eq text.length same
  have within : readLow text.length low ≤ text.length := place.le.trans (Nat.min_le_right ..)
  have behind : text.length - min (wantedStart start) text.length =
      text.length - wantedStart start := by omega
  rw [readRange_eq fits _ _ _ within, wantedRange_eq, place, List.take_eq_take_iff,
    List.length_drop, behind]

/-- The end is not before the start within the text and the cap not below zero, unless nothing is
left to return in either way. -/
structure RangeMet (n : Nat) (start stop maxBytes : Option Int) : Prop where
  ending : ∀ e ∈ stop, min (wantedStart start) n ≤ e ∨
    e < 0 ∧ (n ≤ wantedStart start ∨ maxBytes = some 0)
  cap : ∀ cap ∈ maxBytes, 0 ≤ cap ∨ n ≤ wantedStart start ∨ stop = some (wantedStart start : Int)

/-- The converted numbers do what was asked exactly when the range is met. -/
theorem readRange_iff_rangeMet {text : Bytes} (fits : text.length < 2 ^ 63)
    {low high most : Int64} {start stop maxBytes : Option Int}
    (lowSame : low.toInt = start.getD 0) (highSame : high.toInt = stop.getD (-1))
    (mostSame : most.toInt = maxBytes.getD (-1)) :
    (readRange text low high most = wantedRange text start stop maxBytes ∧
        readLow text.length low ≤ readHigh text.length high ↔
      RangeMet text.length start stop maxBytes) ∧
    (readRange text low high most =
          wantedRange text start (notNegative stop) (notNegative maxBytes) ∧
        readLow text.length low ≤ readHigh text.length high ↔
      ∀ e ∈ stop, 0 ≤ e → min (wantedStart start) text.length ≤ e) := by
  have met : RangeMet text.length start stop maxBytes ↔
      (∀ e ∈ stop, min (wantedStart start) text.length ≤ e ∨
        e < 0 ∧ (text.length ≤ wantedStart start ∨ maxBytes = some 0)) ∧
      ∀ cap ∈ maxBytes, 0 ≤ cap ∨ text.length ≤ wantedStart start ∨
        stop = some (wantedStart start : Int) := ⟨fun met => ⟨met.1, met.2⟩, fun met => ⟨met.1, met.2⟩⟩
  rw [readRange_eq_wantedRange_iff fits lowSame, readRange_eq_wantedRange_iff fits lowSame,
    readLow_eq _ lowSame, met]
  by_cases past : text.length ≤ wantedStart start
  · -- nothing is behind the start, so only the difference can go wrong
    rw [Nat.min_eq_right past, Nat.sub_eq_zero_of_le past, Nat.min_zero, Nat.min_zero]
    simp only [true_and, past, true_or, and_true, or_true, implies_true]
    unfold readHigh
    rw [highSame]
    cases stop with
    | none => simp
    | some e =>
        simp only [Option.getD_some, Option.mem_def, Option.some.injEq, forall_eq']
        split <;> omega
  · have inside : wantedStart start < text.length := Nat.lt_of_not_le past
    unfold readCount wantedCount readHigh notNegative
    rw [highSame, mostSame]
    dsimp only
    rw [Nat.min_eq_left inside.le]
    simp only [past, false_or]
    generalize wantedStart start = s at inside
    generalize text.length = n at fits inside
    cases stop with
    | none =>
        cases maxBytes with
        | none => simp [inside.le]
        | some cap =>
            simp only [Option.getD_none, Option.getD_some, Option.map_none, Option.filter_none,
              Option.filter_some, Option.mem_def, Option.some.injEq, forall_eq', reduceCtorEq]
            by_cases given : 0 ≤ cap
            · simp [given, inside.le]
            · simp [given, inside.le]
              omega
    | some e =>
        simp only [Option.getD_some]
        cases maxBytes with
        | none =>
            simp only [Option.getD_none, Option.map_some, Option.getD_some, Option.filter_none,
              Option.filter_some, Option.mem_def, Option.some.injEq, forall_eq', reduceCtorEq]
            by_cases known : 0 ≤ e
            · simp [known]
              split <;> split <;> omega
            · simp [known, inside.le]
              omega
        | some cap =>
            simp only [Option.getD_some, Option.map_some, Option.filter_some, Option.mem_def,
              Option.some.injEq, forall_eq']
            by_cases known : 0 ≤ e
            · by_cases given : 0 ≤ cap
              · simp [known, given]
                split <;> split <;> constructor <;> omega
              · simp [known, given]
                split <;> split <;> omega
            · by_cases given : 0 ≤ cap
              · simp [known, given, inside.le]
                omega
              · simp [known, given, inside.le]
                omega

/-! ## The tool -/

/-- A number that was asked for, if any, or what stands for it. -/
theorem getInt_eq {key : Bytes} {args : JVal} {given : Option Int} {out : Int64}
    (asked : args.findNumber key = given.map fun i => (i : Rat)) :
    (∀ i ∈ given, FitsInt64 i) ∧
        (∃ v, getInt key args out = some v ∧ v.toInt = given.getD out.toInt) ∨
      (∃ i ∈ given, ¬FitsInt64 i) ∧ getInt key args out = none := by
  unfold getInt
  rw [asked]
  cases given with
  | none => exact .inl ⟨by simp, out, rfl, rfl⟩
  | some i =>
      have whole : (i : Rat).num.tdiv (i : Rat).den = i := by simp
      show _ ∧ (∃ v, toInt64 i = some v ∧ _) ∨ _ ∧ toInt64 i = none
      unfold toInt64
      dsimp only
      rw [whole]
      by_cases fits : FitsInt64 i
      · rw [if_pos fits]
        exact .inl ⟨by simpa using fits, _, rfl, Int64.toInt_ofInt_of_le fits.1 fits.2⟩
      · rw [if_neg fits]
        exact .inr ⟨⟨i, rfl, fits⟩, rfl⟩

section Run

variable {base : Bytes} {inv : Invocation} {d : Disk} {args : JVal} {path abs text : Bytes}

/-- The tool with numbers that are converted, on a file that can be read. -/
theorem fileRead_run (undefined_ : ToolResult × Disk) (asked : Nat) (canceled : Bool)
    {start stop maxBytes : Int64} (parsed : readArgs inv.argsJson = .ok args)
    (named : args.findString (str "path") = some path)
    (startRead : getInt (str "start") args 0 = some start)
    (stopRead : getInt (str "end") args (-1) = some stop)
    (capRead : getInt (str "max_bytes") args (-1) = some maxBytes)
    (inside : resolveInSandbox base path = some abs)
    (readable : (readWholeFile abs d).1 = .ok text) :
    ((fileReadTool base undefined_).run asked inv canceled d).1 =
      textResult fileReadId .ok (readRange text start stop maxBytes) := by
  have pair : readWholeFile abs d = (.ok text, (readWholeFile abs d).2) := by
    rw [← readable]
  dsimp only [fileReadTool]
  rw [parsed]
  dsimp only
  rw [named]
  dsimp only
  rw [startRead, stopRead, capRead]
  dsimp only [fileReadAt]
  rw [inside]
  dsimp only
  rw [pair]

/-- The tool with a number that cannot be converted. -/
theorem fileRead_undefined (undefined_ : ToolResult × Disk) (asked : Nat) (canceled : Bool)
    (parsed : readArgs inv.argsJson = .ok args)
    (named : args.findString (str "path") = some path)
    (failed : getInt (str "start") args 0 = none ∨ getInt (str "end") args (-1) = none ∨
      getInt (str "max_bytes") args (-1) = none) :
    (fileReadTool base undefined_).run asked inv canceled d = undefined_ := by
  dsimp only [fileReadTool]
  rw [parsed]
  dsimp only
  rw [named]
  dsimp only
  split
  · next start stop maxBytes => rcases failed with none_ | none_ | none_ <;> simp_all
  · rfl

/-- The tool returns a content, whatever comes out behind a conversion that is not defined, and
the difference of the sizes does not wrap around. -/
def Reads (base : Bytes) (asked : Nat) (inv : Invocation) (canceled : Bool) (d : Disk)
    (args : JVal) (text content : Bytes) : Prop :=
  (∀ undefined_, ((fileReadTool base undefined_).run asked inv canceled d).1 =
    textResult fileReadId .ok content) ∧
  ∀ start ∈ getInt (str "start") args 0, ∀ stop ∈ getInt (str "end") args (-1),
    readLow text.length start ≤ readHigh text.length stop

end Run

/-- A workspace with one file. -/
def oneFile : Disk :=
  ⟨[(.of (str "/w"), .dir), (.of (str "/w/f"), .file (str "abcdef"))], fun _ => .none, 0⟩

open Opencodepp.Library.Wildcard

def isEdge (b : UInt8) : Bool := b = 0x20 || b = 0x09 || b = 0x0d || b = 0x0a

/-- A text without white space at its ends. -/
def trimSpace (s : Bytes) : Bytes :=
  ((s.dropWhile isEdge).reverse.dropWhile isEdge).reverse

/-- What follows the last slash. -/
def basename (p : Bytes) : Bytes := (p.reverse.takeWhile (· ≠ slash)).reverse

/-- What a line of a .gitignore names: not the blank ones and not the comments. -/
def ignoreRule (line : Bytes) : Option Bytes :=
  let l := trimSpace line
  if l = [] || l.head? = some (ch '#') then none
  else some (if l.getLast? = some slash then l.dropLast else l)

def ignoreRules (text : Bytes) : List Bytes := (splitLines text).filterMap ignoreRule

/-- A pattern is tried on a path and on its last name. -/
def globHit (pattern rel : Bytes) : Bool :=
  globMatch pattern rel || globMatch pattern (basename rel)

def ignored (rules : List Bytes) (rel : Bytes) : Bool := rules.any fun rule => globHit rule rel

/-- What a walk through a directory comes to. -/
structure WalkEntry where
  path : Bytes
  isDirectory : Bool
  deriving Repr, DecidableEq

/-- Walks through directories and regular expressions, which the standard library has: the
entries below a directory in some order, and a matcher for an expression that is valid. -/
structure Searcher where
  walk : Bytes → Disk → List WalkEntry
  regex : Bytes → Option (Bytes → Bool)

/-- The loop over the entries; what was found so far, a line each, or the message of an error. -/
def searchLoop (canceled : Bool) (abs : Bytes) (rules : List Bytes) (hit : Bytes → Bool) :
    Bytes → List WalkEntry → Except Bytes Bytes
  | out, [] => .ok out
  | out, e :: rest =>
      if canceled then .error (str "canceled")
      else if e.isDirectory then searchLoop canceled abs rules hit out rest
      else
        let rel := e.path.drop (abs.length + 1)
        if occursIn (str ".git") rel || ignored rules rel then
          searchLoop canceled abs rules hit out rest
        else if hit rel then searchLoop canceled abs rules hit (out ++ rel ++ [newline]) rest
        else searchLoop canceled abs rules hit out rest

/-- Whether a path names a directory; the empty one names nothing. -/
def isDirectory (d : Disk) (abs : Bytes) : Bool := abs ≠ [] && d.node (.of abs) = some .dir

def fileSearchId : Bytes := str "file.search"

def searchError (message : Bytes) : ToolResult := textResult fileSearchId .error message

/-- The rules of a directory; none when they are not asked for or cannot be read. -/
def rulesOf (gitignore : Bool) (abs : Bytes) (d : Disk) : List Bytes × Disk :=
  if gitignore then
    match readWholeFile (abs ++ str "/.gitignore") d with
    | (.ok text, d) => (ignoreRules text, d)
    | (.error _, d) => ([], d)
  else ([], d)

/-- The matcher that is asked for; none for an expression that is not valid. -/
def matcherOf (searcher : Searcher) (useRegex : Bool) (pattern : Bytes) :
    Option (Bytes → Bool) :=
  if useRegex then searcher.regex pattern else some (globHit pattern)

/-- The file.search tool over a base directory. -/
def fileSearchTool (searcher : Searcher) (base : Bytes) : Tool where
  spec := fileSearchSpec
  run _ inv canceled d :=
    match readArgs inv.argsJson with
    | .error _ => (searchError (str "bad args"), d)
    | .ok args =>
        match args.findString (str "pattern") with
        | none => (searchError (str "missing required arg: pattern"), d)
        | some pattern =>
            let path := (args.findString (str "path")).getD (str ".")
            match resolveInSandbox base path with
            | none => (searchError (str "path escapes the workspace: " ++ path), d)
            | some abs =>
                if isDirectory d abs then
                  let (rules, d) := rulesOf ((args.findBool (str "gitignore")).getD true) abs d
                  match matcherOf searcher ((args.findBool (str "regex")).getD false) pattern with
                  | none => (searchError (str "invalid regex: " ++ pattern), d)
                  | some hit =>
                      match searchLoop canceled abs rules hit [] (searcher.walk abs d) with
                      | .error message => (searchError message, d)
                      | .ok out => (textResult fileSearchId .ok out, d)
                else (searchError (str "not a directory: " ++ path), d)

/-! ### What is listed -/

/-- The paths of the files of a walk, below the directory it began in. -/
def filesOf (abs : Bytes) (entries : List WalkEntry) : List Bytes :=
  (entries.filter fun e => !e.isDirectory).map fun e => e.path.drop (abs.length + 1)

/-- What the loop lists of the files. -/
def listed (rules : List Bytes) (hit : Bytes → Bool) (rel : Bytes) : Bool :=
  !occursIn (str ".git") rel && !ignored rules rel && hit rel

/-- The loop lists the files that it keeps, in their order. -/
theorem searchLoop_eq (abs : Bytes) (rules : List Bytes) (hit : Bytes → Bool)
    (entries : List WalkEntry) : ∀ out : Bytes,
    searchLoop false abs rules hit out entries =
      .ok (out ++ joinLines ((filesOf abs entries).filter (listed rules hit))) := by
  induction entries with
  | nil => exact fun out => congrArg Except.ok (List.append_nil out).symm
  | cons e rest inductionHypothesis =>
      intro out
      unfold searchLoop
      rw [if_neg Bool.false_ne_true]
      dsimp only
      cases directory : e.isDirectory with
      | true =>
          have files : filesOf abs (e :: rest) = filesOf abs rest := by
            unfold filesOf
            rw [List.filter_cons_of_neg (by simp [directory])]
          rw [if_pos rfl, inductionHypothesis, files]
      | false =>
          have files : filesOf abs (e :: rest) =
              e.path.drop (abs.length + 1) :: filesOf abs rest := by
            unfold filesOf
            rw [List.filter_cons_of_pos (by simp [directory]), List.map_cons]
          rw [if_neg Bool.false_ne_true, files]
          generalize e.path.drop (abs.length + 1) = rel
          by_cases hidden : (occursIn (str ".git") rel || ignored rules rel) = true
          · have dropped : listed rules hit rel = false := by
              unfold listed
              obtain git | rule := Bool.or_eq_true_iff.mp hidden
              · simp [git]
              · simp [rule]
            rw [if_pos hidden, inductionHypothesis, List.filter_cons_of_neg (by simp [dropped])]
          · have kept : listed rules hit rel = hit rel := by
              simp only [Bool.or_eq_true, not_or, Bool.not_eq_true] at hidden
              unfold listed
              rw [hidden.1, hidden.2]
              rfl
            rw [if_neg hidden]
            cases found : hit rel with
            | true =>
                rw [if_pos rfl, inductionHypothesis,
                  List.filter_cons_of_pos (by rw [kept, found])]
                simp [joinLines]
            | false =>
                rw [if_neg Bool.false_ne_true, inductionHypothesis,
                  List.filter_cons_of_neg (by rw [kept, found]; exact Bool.false_ne_true)]

/-- A pattern finds a path: the whole of it or its last name. -/
def Finds (pattern rel : Bytes) : Prop :=
  Matches star question pattern rel ∨ Matches star question pattern (basename rel)

theorem globHit_sound {pattern rel : Bytes} (hit : globHit pattern rel = true) :
    Finds pattern rel := by
  obtain whole | last := Bool.or_eq_true_iff.mp hit
  · exact .inl (globMatch_sound whole)
  · exact .inr (globMatch_sound last)

theorem basename_subset (rel : Bytes) : basename rel ⊆ rel := by
  intro b member
  have inside := (List.takeWhile_sublist _).subset (List.mem_reverse.mp member)
  exact List.mem_reverse.mp inside

/-- In names without stars the tool finds all that the pattern does. -/
theorem globHit_iff {pattern rel : Bytes} (plain : star ∉ rel) :
    globHit pattern rel = true ↔ Finds pattern rel := by
  refine ⟨globHit_sound, fun finds => Bool.or_eq_true_iff.mpr ?_⟩
  refine finds.imp (globMatch_complete (starsApart_of_subject plain pattern)) ?_
  exact globMatch_complete
    (starsApart_of_subject (fun member => plain (basename_subset rel member)) pattern)

/-- A file below a directory, by its path from there. -/
def FileBelow (d : Disk) (abs rel : Bytes) : Prop :=
  rel ≠ [] ∧ ∃ more content, rel = [slash].intercalate more ∧
    d.node ⟨(FileId.of abs).absolute, (FileId.of abs).components ++ more⟩ = some (.file content)

/-- A walk comes to the files below its directory and to no others, by their paths. -/
def Searcher.Walks (searcher : Searcher) : Prop :=
  ∀ abs d path, (⟨path, false⟩ : WalkEntry) ∈ searcher.walk abs d ↔
    ∃ rel, FileBelow d abs rel ∧ path = join abs rel

theorem node_rulesOf (gitignore : Bool) (abs : Bytes) (d : Disk) :
    (rulesOf gitignore abs d).2.node = d.node := by
  have same := node_readWholeFile (d := d) (abs ++ str "/.gitignore")
  unfold rulesOf
  cases gitignore with
  | false => rfl
  | true =>
      cases read : readWholeFile (abs ++ str "/.gitignore") d with
      | mk outcome d' =>
          rw [read] at same
          cases outcome with
          | error e => exact same
          | ok text => exact same

theorem drop_join {abs rel : Bytes} (some_ : abs ≠ []) (open_ : abs.getLast? ≠ some slash)
    (named : rel ≠ []) : (join abs rel).drop (abs.length + 1) = rel := by
  unfold join
  rw [if_pos (by simp [some_, open_, named]), ← List.drop_drop, List.drop_left]
  rfl

/-- The files of a walk are those below its directory. -/
theorem mem_filesOf {searcher : Searcher} (walks : searcher.Walks) {d : Disk} {abs : Bytes}
    (some_ : abs ≠ []) (open_ : abs.getLast? ≠ some slash) (rel : Bytes) :
    rel ∈ filesOf abs (searcher.walk abs d) ↔ FileBelow d abs rel := by
  unfold filesOf
  rw [List.mem_map]
  constructor
  · rintro ⟨⟨path, kind⟩, member, rfl⟩
    obtain ⟨inside, plain⟩ := List.mem_filter.mp member
    obtain rfl : kind = false := by simpa using plain
    obtain ⟨rel, below, rfl⟩ := (walks abs d path).mp inside
    rwa [drop_join some_ open_ below.1]
  · intro below
    refine ⟨⟨join abs rel, false⟩, List.mem_filter.mpr ⟨?_, rfl⟩, drop_join some_ open_ below.1⟩
    exact (walks abs d _).mpr ⟨rel, below, rfl⟩

theorem FileBelow.congr {d d' : Disk} (same : d'.node = d.node) {abs rel : Bytes} :
    FileBelow d' abs rel ↔ FileBelow d abs rel := by
  unfold FileBelow
  rw [same]

/-- The tool on a directory. -/
theorem fileSearch_run {searcher : Searcher} {base : Bytes} {asked : Nat} {inv : Invocation}
    {d : Disk} {args : JVal} {pattern abs : Bytes} (parsed : readArgs inv.argsJson = .ok args)
    (wanted : args.findString (str "pattern") = some pattern)
    (inside : resolveInSandbox base ((args.findString (str "path")).getD (str ".")) = some abs)
    (directory : isDirectory d abs = true)
    (glob : (args.findBool (str "regex")).getD false = false) :
    (fileSearchTool searcher base).run asked inv false d =
      (textResult fileSearchId .ok (joinLines
        ((filesOf abs (searcher.walk abs
          (rulesOf ((args.findBool (str "gitignore")).getD true) abs d).2)).filter
            (listed (rulesOf ((args.findBool (str "gitignore")).getD true) abs d).1
              (globHit pattern)))),
        (rulesOf ((args.findBool (str "gitignore")).getD true) abs d).2) := by
  dsimp only [fileSearchTool]
  rw [parsed]
  dsimp only
  rw [wanted]
  dsimp only
  rw [inside]
  dsimp only
  rw [if_pos directory, glob]
  have matcher : matcherOf searcher false pattern = some (globHit pattern) := rfl
  rw [matcher]
  dsimp only
  rw [searchLoop_eq, List.nil_append]

/-- **A search by a glob lists the files below its directory that the pattern finds**, but for
those with `.git` somewhere in their path and those that a rule of the directory finds; where
there are stars in a path, it lists no others, but may miss some.  It changes nothing. -/
theorem search_lists {searcher : Searcher} (walks : searcher.Walks) {base : Bytes} {asked : Nat}
    {inv : Invocation} {d : Disk} {args : JVal} {pattern abs : Bytes}
    (parsed : readArgs inv.argsJson = .ok args)
    (wanted : args.findString (str "pattern") = some pattern)
    (inside : resolveInSandbox base ((args.findString (str "path")).getD (str ".")) = some abs)
    (directory : isDirectory d abs = true) (open_ : abs.getLast? ≠ some slash)
    (glob : (args.findBool (str "regex")).getD false = false) :
    ∃ found : List Bytes,
      ((fileSearchTool searcher base).run asked inv false d).1 =
        textResult fileSearchId .ok (joinLines found) ∧
      (∀ rel ∈ found, FileBelow d abs rel ∧ occursIn (str ".git") rel = false ∧
        Finds pattern rel) ∧
      (∀ rel, FileBelow d abs rel → star ∉ rel → (rel ∈ found ↔
        occursIn (str ".git") rel = false ∧ Finds pattern rel ∧
          ∀ rule ∈ (rulesOf ((args.findBool (str "gitignore")).getD true) abs d).1,
            ¬ Finds rule rel)) ∧
      ((fileSearchTool searcher base).run asked inv false d).2.node = d.node := by
  have some_ : abs ≠ [] := by
    unfold isDirectory at directory
    simp only [Bool.and_eq_true, decide_eq_true_eq] at directory
    exact directory.1
  rw [fileSearch_run parsed wanted inside directory glob]
  generalize gitignoreEq : (args.findBool (str "gitignore")).getD true = gitignore
  have same := node_rulesOf gitignore abs d
  generalize rulesOf gitignore abs d = ruled at same ⊢
  have members (rel : Bytes) : rel ∈ filesOf abs (searcher.walk abs ruled.2) ↔
      FileBelow d abs rel := (mem_filesOf walks some_ open_ rel).trans (FileBelow.congr same)
  refine ⟨_, rfl, fun rel member => ?_, fun rel below plain => ?_, same⟩
  · obtain ⟨file, keeps⟩ := List.mem_filter.mp member
    unfold listed at keeps
    simp only [Bool.and_eq_true, Bool.not_eq_true'] at keeps
    exact ⟨(members rel).mp file, keeps.1.1, globHit_sound keeps.2⟩
  · rw [List.mem_filter, and_iff_right ((members rel).mpr below)]
    unfold listed ignored
    simp only [Bool.and_eq_true, Bool.not_eq_true', globHit_iff plain]
    have refused : (ruled.1.any fun rule => globHit rule rel) = false ↔
        ∀ rule ∈ ruled.1, ¬ Finds rule rel := by
      rw [List.any_eq_false]
      exact forall₂_congr fun rule _ => not_congr (globHit_iff plain)
    rw [refused]
    exact ⟨fun both => ⟨both.1.1, both.2, both.1.2⟩, fun all => ⟨⟨all.1, all.2.2⟩, all.2.1⟩⟩

/-- A walk over the tree of the model. -/
def nodesBelow (abs : Bytes) (d : Disk) : List WalkEntry :=
  d.nodes.filterMap fun entry =>
    let rel := [slash].intercalate
      (entry.1.components.drop (FileId.of abs).components.length)
    if entry.1.absolute = (FileId.of abs).absolute ∧
        (FileId.of abs).components <+: entry.1.components ∧ rel ≠ [] ∧
        d.node entry.1 = some entry.2 then
      some ⟨join abs rel, entry.2 = .dir⟩
    else none

/-- A search over that walk; no expression is valid. -/
def treeSearcher : Searcher := ⟨nodesBelow, fun _ => none⟩

theorem walks_treeSearcher : treeSearcher.Walks := by
  intro abs d path
  show _ ∈ List.filterMap _ d.nodes ↔ _
  rw [List.mem_filterMap]
  constructor
  · rintro ⟨⟨id, node⟩, -, kept⟩
    dsimp only at kept
    split at kept
    · next here =>
        obtain ⟨absolute, ⟨more, components⟩, named, found⟩ := here
        obtain ⟨pathEq, plain⟩ := WalkEntry.mk.inj (Option.some.inj kept)
        have rest : id.components.drop (FileId.of abs).components.length = more := by
          rw [← components, List.drop_left]
        rw [rest] at named pathEq
        have identity : (⟨(FileId.of abs).absolute, (FileId.of abs).components ++ more⟩ : FileId) =
            id := by
          rw [components, ← absolute]
        cases node with
        | dir => cases plain
        | file content =>
            exact ⟨_, ⟨named, more, content, rfl, by rw [identity]; exact found⟩, pathEq.symm⟩
    · cases kept
  · rintro ⟨rel, ⟨named, more, content, rfl, found⟩, rfl⟩
    have proper : (FileId.of abs).components ++ more ≠ [] := by
      rintro nothing
      obtain ⟨-, rfl⟩ := List.append_eq_nil_iff.mp nothing
      exact named rfl
    have stored := found
    unfold Disk.node at stored
    rw [if_neg proper] at stored
    obtain ⟨before, after, split_, -⟩ := List.lookup_eq_some_iff.mp stored
    refine ⟨(⟨(FileId.of abs).absolute, (FileId.of abs).components ++ more⟩, .file content),
      split_ ▸ List.mem_append_right _ List.mem_cons_self, ?_⟩
    dsimp only
    rw [List.drop_left, if_pos ⟨rfl, List.prefix_append _ _, named, found⟩]
    rfl

/-- A workspace with a source file, one that is built, and one of the repository's own. -/
def builtSources : Disk :=
  ⟨[(.of (str "/w"), .dir), (.of (str "/w/.git"), .dir),
    (.of (str "/w/.gitignore"), .file (str "# built\nbuild.cpp\n")),
    (.of (str "/w/a.cpp"), .file (str "int x;")), (.of (str "/w/build.cpp"), .file (str "int y;")),
    (.of (str "/w/.git/x.cpp"), .file (str "int z;"))], fun _ => .none, 0⟩

/-- Of three files that the pattern finds, the one that no rule finds is listed. -/
theorem search_lists_source : ∃ found : List Bytes,
    ((fileSearchTool treeSearcher (str "/w")).run 0
      ⟨fileSearchId, str "\x7b\"pattern\":\"*.cpp\"\x7d"⟩ false builtSources).1 =
        textResult fileSearchId .ok (joinLines found) ∧
      str "a.cpp" ∈ found ∧ str "build.cpp" ∉ found ∧ str ".git/x.cpp" ∉ found := by
  have given : (readArgs (str "\x7b\"pattern\":\"*.cpp\"\x7d")).toOption.any
      (fun args => decide (args.findString (str "pattern") = some (str "*.cpp") ∧
        resolveInSandbox (str "/w") ((args.findString (str "path")).getD (str ".")) =
          some (str "/w") ∧ (args.findBool (str "regex")).getD false = false ∧
        (rulesOf ((args.findBool (str "gitignore")).getD true) (str "/w") builtSources).1 =
          [str "build.cpp"])) = true := by decide +kernel
  cases parsed : readArgs (str "\x7b\"pattern\":\"*.cpp\"\x7d") with
  | error refused =>
      rw [parsed] at given
      cases given
  | ok args =>
      rw [parsed] at given
      obtain ⟨wanted, inside, glob, rules⟩ := of_decide_eq_true given
      obtain ⟨found, result, only, lists, -⟩ := @search_lists _ walks_treeSearcher _ 0
        ⟨fileSearchId, str "\x7b\"pattern\":\"*.cpp\"\x7d"⟩ builtSources _ _ _ parsed wanted inside
        (by decide) (by decide) glob
      rw [rules] at lists
      have source : FileBelow builtSources (str "/w") (str "a.cpp") :=
        ⟨by decide, [str "a.cpp"], str "int x;", by decide, by decide⟩
      have built : FileBelow builtSources (str "/w") (str "build.cpp") :=
        ⟨by decide, [str "build.cpp"], str "int y;", by decide, by decide⟩
      have matches_ : Matches star question (str "*.cpp") (str "a.cpp") :=
        (matches_star_iff question_ne_star).mpr ⟨str "a", str ".cpp", rfl,
          matches_append_self (str ".cpp") .nil⟩
      -- the path is its own last name, and begins with another letter
      have other : ¬Finds (str "build.cpp") (str "a.cpp") := by
        have refused : ¬Matches star question (str "build.cpp") (str "a.cpp") := by
          rw [show str "build.cpp" = ch 'b' :: str "uild.cpp" from rfl,
            matches_cons_iff (by decide)]
          rintro ⟨a, rest, split, ⟨-, admits⟩, -⟩
          obtain ⟨rfl, -⟩ := List.cons.inj split
          exact absurd admits (by decide)
        exact fun finds => finds.elim refused refused
      refine ⟨found, result, (lists _ source (by decide)).mpr ⟨by decide, .inl matches_, ?_⟩, ?_, ?_⟩
      · rw [List.forall_mem_singleton]
        exact other
      · intro member
        have refused := ((lists _ built (by decide)).mp member).2.2
        rw [List.forall_mem_singleton] at refused
        exact refused (.inl (matches_append_self (str "build.cpp") .nil))
      · intro member
        exact absurd (only _ member).2.1 (by decide)

end Opencodepp.Tools
