import Opencodepp.Library.FileSystem

/-!
# Confinement to the workspace

File tools take paths relative to the workspace.  `resolveInSandbox` normalises such
a path with a stack of its segments, refuses one that climbs out, and joins the rest
to the base.

The main result is `fileId_resolveInSandbox`: for a relative path without two dots
in a row, the normalised path and the plain concatenation of base and path name the
same file, also when the path holds a zero byte at which both C strings end.
-/

set_option autoImplicit false

namespace Opencodepp.Tools

open Opencodepp.Library

/-- Join two paths with one separator; an empty second part adds none. -/
def join (a b : Bytes) : Bytes :=
  if a ≠ [] && a.getLast? ≠ some slash && b ≠ [] then a ++ slash :: b else a ++ b

/-- One segment: skip it, pop the stack, or push it. -/
def sandboxStep (acc : List Bytes × Bool) (s : Bytes) : List Bytes × Bool :=
  if s = [] || s = str "." then acc
  else if s = str ".." then
    if acc.1 = [] then (acc.1, true) else (acc.1.dropLast, acc.2)
  else (acc.1 ++ [s], acc.2)

/-- The absolute name of a workspace path; none when the path escapes. -/
def resolveInSandbox (base path : Bytes) : Option Bytes :=
  if path = [] || path.head? = some slash then none
  else
    let walked := (tokens slash path).foldl sandboxStep ([], false)
    if walked.2 then none else some (join base ([slash].intercalate walked.1))

/-- The base and the path put together without looking at the segments. -/
def plainPath (base path : Bytes) : Bytes := if base = [] then path else base ++ slash :: path

/-! ## Paths without two dots in a row -/

theorem infix_of_mem_tokens {path piece : Bytes} (member : piece ∈ tokens slash path) :
    ∃ before after, path = before ++ piece ++ after := by
  have inSplit := (List.mem_filter.mp member).1
  have whole : [slash].intercalate (path.splitOn slash) = path := List.intercalate_splitOn slash
  obtain ⟨pre, post, split⟩ := List.append_of_mem inSplit
  rw [split] at whole
  generalize path = p at whole
  clear split inSplit member
  induction pre generalizing p with
  | nil =>
      cases post with
      | nil => exact ⟨[], [], by simpa [List.intercalate] using whole.symm⟩
      | cons next rest =>
          refine ⟨[], slash :: [slash].intercalate (next :: rest), ?_⟩
          rw [← whole]
          simp [List.intercalate]
  | cons first pre inductionHypothesis =>
      obtain ⟨before, after, same⟩ :=
        inductionHypothesis ([slash].intercalate (pre ++ piece :: post)) rfl
      refine ⟨first ++ slash :: before, after, ?_⟩
      rw [← whole]
      cases pre with
      | nil => simpa [List.intercalate, List.intersperse] using same
      | cons second pre => simpa [List.intercalate, List.intersperse] using same

/-- Without two dots in a row no segment is the parent segment. -/
theorem dotdot_notMem_tokens {path : Bytes} (clean : occursIn (str "..") path = false) :
    str ".." ∉ tokens slash path := by
  intro member
  have occurs := (occursIn_iff (str "..")).mpr (infix_of_mem_tokens member)
  rw [clean] at occurs
  cases occurs

/-- Without parent segments the walk keeps every segment but the dots. -/
theorem walk_of_no_dotdot : ∀ (segments stack : List Bytes), str ".." ∉ segments →
    (∀ s ∈ segments, s ≠ []) →
      segments.foldl sandboxStep (stack, false) =
        (stack ++ segments.filter (· ≠ [0x2e]), false) := by
  intro segments
  induction segments with
  | nil => simp
  | cons s rest inductionHypothesis =>
      intro stack noParent proper
      have notParent : s ≠ str ".." := fun same => noParent (same ▸ List.mem_cons_self ..)
      have nonempty := proper s (List.mem_cons_self ..)
      have dot : str "." = [0x2e] := by decide
      have stepped : sandboxStep (stack, false) s =
          (stack ++ [s].filter (· ≠ [0x2e]), false) := by
        by_cases isDot : s = [0x2e]
        · simp [sandboxStep, isDot, dot]
        · simp [sandboxStep, isDot, dot, nonempty, notParent]
      rw [List.foldl_cons, stepped, inductionHypothesis _
        (fun member => noParent (List.mem_cons_of_mem _ member))
        (fun t member => proper t (List.mem_cons_of_mem _ member))]
      by_cases isDot : s = [0x2e] <;> simp [isDot]

theorem tokens_ne_nil {path s : Bytes} (member : s ∈ tokens slash path) : s ≠ [] := by
  simpa using (List.mem_filter.mp member).2

/-- The normalised form of a clean relative path. -/
theorem resolveInSandbox_of_clean (base : Bytes) {path : Bytes} (nonempty : path ≠ [])
    (isRelative : path.head? ≠ some slash) (clean : occursIn (str "..") path = false) :
    resolveInSandbox base path =
      some (join base ([slash].intercalate (FileId.componentsOf path))) := by
  have walk := walk_of_no_dotdot (tokens slash path) [] (dotdot_notMem_tokens clean)
    (fun _ => tokens_ne_nil)
  simp only [resolveInSandbox, nonempty, isRelative, walk, List.nil_append]
  simp [FileId.componentsOf]

/-! ## Zero bytes -/

/-- A proper component: neither empty nor a dot. -/
def isComponent (s : Bytes) : Bool := s ≠ [] && s ≠ [0x2e]

/-- What a zero byte leaves of a list of segments. -/
def cutSegments : List Bytes → List Bytes
  | [] => []
  | s :: rest => if 0 ∈ s then [cString s] else s :: cutSegments rest

theorem splitOn_cString_intercalate : ∀ {segments : List Bytes}, segments ≠ [] →
    (∀ s ∈ segments, slash ∉ s) →
      (cString ([slash].intercalate segments)).splitOn slash = cutSegments segments := by
  intro segments
  induction segments with
  | nil => intro nonempty; exact absurd rfl nonempty
  | cons s rest inductionHypothesis =>
      intro _ proper
      have noSlash := proper s (List.mem_cons_self ..)
      have cutNoSlash : slash ∉ cString s := fun member => noSlash (cString_subset member)
      cases rest with
      | nil =>
          have single : [slash].intercalate [s] = s := by simp [List.intercalate]
          rw [single, List.splitOn_eq_singleton cutNoSlash]
          by_cases zero : (0 : UInt8) ∈ s
          · simp [cutSegments, zero]
          · simp [cutSegments, zero, cString_of_notMem zero]
      | cons next others =>
          have joined : [slash].intercalate (s :: next :: others) =
              s ++ slash :: [slash].intercalate (next :: others) := by
            simp [List.intercalate, List.intersperse]
          rw [joined]
          by_cases zero : (0 : UInt8) ∈ s
          · rw [cString_append_of_mem zero, List.splitOn_eq_singleton cutNoSlash]
            simp [cutSegments, zero]
          · have tail := inductionHypothesis (by simp)
              (fun t member => proper t (List.mem_cons_of_mem _ member))
            have cutTail : cString (slash :: [slash].intercalate (next :: others)) =
                slash :: cString ([slash].intercalate (next :: others)) := by
              simp [cString, slash]
            rw [cString_append_of_notMem zero, cutTail, List.splitOn_append_cons_self, tail,
              List.splitOn_eq_singleton noSlash]
            simp [cutSegments, zero]

/-- Dropping improper segments before or after the cut is the same. -/
theorem filter_cutSegments : ∀ segments : List Bytes,
    (cutSegments (segments.filter isComponent)).filter isComponent =
      (cutSegments segments).filter isComponent := by
  intro segments
  induction segments with
  | nil => rfl
  | cons s rest inductionHypothesis =>
      by_cases proper : isComponent s = true
      · by_cases zero : (0 : UInt8) ∈ s
        · simp [cutSegments, proper, zero]
        · simp [cutSegments, proper, zero, inductionHypothesis]
      · have noZero : (0 : UInt8) ∉ s := by
          intro zero
          have nonempty : s ≠ [] := List.ne_nil_of_mem zero
          have dot : s = [0x2e] := by simpa [isComponent, nonempty] using proper
          simp [dot] at zero
        simp [cutSegments, proper, noZero, inductionHypothesis]

theorem componentsOf_eq_filter (path : Bytes) :
    FileId.componentsOf path = (path.splitOn slash).filter isComponent := by
  simp only [FileId.componentsOf, tokens, List.filter_filter]
  congr 1
  funext s
  simp [isComponent, Bool.and_comm]

theorem slash_notMem_of_mem_splitOn {path s : Bytes} (member : s ∈ path.splitOn slash) :
    slash ∉ s := by
  by_cases empty : s = []
  · simp [empty]
  · exact separator_notMem_of_mem_tokens (s := path)
      (List.mem_filter.mpr ⟨member, by simpa using empty⟩)

/-- Normalising a path before it is cut at a zero byte does not change its components. -/
theorem componentsOf_cString_normalised (path : Bytes) :
    FileId.componentsOf (cString ([slash].intercalate (FileId.componentsOf path))) =
      FileId.componentsOf (cString path) := by
  have whole : [slash].intercalate (path.splitOn slash) = path := List.intercalate_splitOn slash
  have cutWhole := splitOn_cString_intercalate (List.splitOn_ne_nil slash path)
    (fun s member => slash_notMem_of_mem_splitOn member)
  rw [whole] at cutWhole
  rw [componentsOf_eq_filter (cString path), cutWhole, ← filter_cutSegments,
    ← componentsOf_eq_filter path, componentsOf_eq_filter (cString _)]
  by_cases none : FileId.componentsOf path = []
  · rw [none]
    rfl
  · rw [splitOn_cString_intercalate none]
    intro s member
    rw [componentsOf_eq_filter] at member
    exact slash_notMem_of_mem_splitOn (List.mem_filter.mp member).1

/-! ## One file under two names -/

theorem componentsOf_append_slash (first second : Bytes) :
    FileId.componentsOf (first ++ slash :: second) =
      FileId.componentsOf first ++ FileId.componentsOf second := by
  simp [FileId.componentsOf, tokens_append_separator]

/-- Joining adds the components of the second path to those of the base. -/
theorem componentsOf_cString_join {base : Bytes} (clean : (0 : UInt8) ∉ base) (rel : Bytes) :
    FileId.componentsOf (cString (join base rel)) =
      FileId.componentsOf base ++ FileId.componentsOf (cString rel) := by
  have zeroFree : ∀ t, cString (base ++ t) = base ++ cString t := cString_append_of_notMem clean
  have cutSlash : cString (slash :: rel) = slash :: cString rel := by simp [cString, slash]
  unfold join
  split
  · rw [zeroFree, cutSlash, componentsOf_append_slash]
  · next plain =>
      rw [zeroFree]
      by_cases emptyRel : rel = []
      · simp [emptyRel, cString, FileId.componentsOf]
      · rcases List.eq_nil_or_concat base with empty | ⟨front, last, shape⟩
        · simp [empty, FileId.componentsOf]
        · have endsInSlash : last = slash := by simpa [shape, emptyRel] using plain
          rw [shape, endsInSlash, List.concat_eq_append]
          have opened : front ++ [slash] ++ cString rel = front ++ slash :: cString rel := by simp
          have closed : FileId.componentsOf (front ++ [slash]) = FileId.componentsOf front := by
            rw [componentsOf_append_slash]
            simp [FileId.componentsOf]
          rw [opened, componentsOf_append_slash, closed]

theorem head_componentsOf_ne_slash (path : Bytes) :
    ([slash].intercalate (FileId.componentsOf path)).head? ≠ some slash := by
  cases comps : FileId.componentsOf path with
  | nil => simp [List.intercalate]
  | cons first rest =>
      have member : first ∈ FileId.componentsOf path := by simp [comps]
      rw [componentsOf_eq_filter] at member
      obtain ⟨inSplit, proper⟩ := List.mem_filter.mp member
      have noSlash := slash_notMem_of_mem_splitOn inSplit
      cases first with
      | nil => simp [isComponent] at proper
      | cons b tail =>
          have other : b ≠ slash := fun same => noSlash (same ▸ List.mem_cons_self ..)
          cases rest with
          | nil => simpa [List.intercalate] using other
          | cons second others => simpa [List.intercalate] using other

theorem head_cString_ne_slash {path : Bytes} (isRelative : path.head? ≠ some slash) :
    (cString path).head? ≠ some slash := by
  cases path with
  | nil => simp [cString]
  | cons b rest =>
      unfold cString
      by_cases zero : b = 0
      · simp [zero]
      · simpa [zero] using isRelative

theorem head_cString_append {base : Bytes} (nonempty : base ≠ []) (rest : Bytes) :
    (cString (base ++ rest)).head? = (cString base).head? := by
  cases base with
  | nil => exact absurd rfl nonempty
  | cons b tail =>
      unfold cString
      by_cases zero : b = 0 <;> simp [zero]

/-- **The normalised and the plain name of a clean relative path are one file.** -/
theorem fileId_resolveInSandbox (base : Bytes) {path : Bytes} (nonempty : path ≠ [])
    (isRelative : path.head? ≠ some slash) (clean : occursIn (str "..") path = false) :
    ∃ abs, resolveInSandbox base path = some abs ∧
      FileId.of abs = FileId.of (plainPath base path) := by
  refine ⟨_, resolveInSandbox_of_clean base nonempty isRelative clean, ?_⟩
  generalize relShape : [slash].intercalate (FileId.componentsOf path) = rel
  have sameTail : FileId.componentsOf (cString rel) = FileId.componentsOf (cString path) :=
    relShape ▸ componentsOf_cString_normalised path
  have relHead : rel.head? ≠ some slash := relShape ▸ head_componentsOf_ne_slash path
  by_cases empty : base = []
  · -- without a base the two names are the two relative paths
    simp [FileId.of, plainPath, join, empty, sameTail, head_cString_ne_slash isRelative,
      head_cString_ne_slash relHead]
  · have headJoin : (cString (join base rel)).head? = (cString base).head? := by
      unfold join
      split <;> exact head_cString_append empty _
    have headPlain : (cString (plainPath base path)).head? = (cString base).head? := by
      rw [plainPath, if_neg empty]
      exact head_cString_append empty _
    have comps : FileId.componentsOf (cString (join base rel)) =
        FileId.componentsOf (cString (plainPath base path)) := by
      rw [plainPath, if_neg empty]
      by_cases zero : (0 : UInt8) ∈ base
      · -- the base itself is cut, so nothing after it matters
        rw [cString_append_of_mem zero]
        unfold join
        split <;> rw [cString_append_of_mem zero]
      · have cutSlash : cString (slash :: path) = slash :: cString path := by simp [cString, slash]
        rw [componentsOf_cString_join zero, sameTail, cString_append_of_notMem zero, cutSlash,
          componentsOf_append_slash]
    simp [FileId.of, headJoin, headPlain, comps]

/-! ## A file beside another -/

/-- A suffix without separator goes to the last segment. -/
theorem splitOn_append_of_notMem {ending : Bytes} (plain : slash ∉ ending) (path : Bytes) :
    ∃ front last, path.splitOn slash = front ++ [last] ∧
      (path ++ ending).splitOn slash = front ++ [last ++ ending] := by
  induction size : path.length using Nat.strongRecOn generalizing path with
  | ind n inductionHypothesis =>
      by_cases member : slash ∈ path
      · obtain ⟨first, rest, split⟩ := List.append_of_mem member
        have shorter : rest.length < n := by
          rw [← size, split, List.length_append, List.length_cons]
          omega
        obtain ⟨front, last, whole, extended⟩ := inductionHypothesis _ shorter rest rfl
        refine ⟨first.splitOn slash ++ front, last, ?_, ?_⟩
        · rw [split, List.splitOn_append_cons_self, whole, List.append_assoc]
        · rw [split, List.append_assoc, List.cons_append, List.splitOn_append_cons_self, extended,
            List.append_assoc]
      · have none_ : slash ∉ path ++ ending := by simp [member, plain]
        exact ⟨[], path, List.splitOn_eq_singleton member, List.splitOn_eq_singleton none_⟩

/-- A longer last segment makes another file. -/
theorem fileId_append_ne {path ending : Bytes} (clean : (0 : UInt8) ∉ path)
    (cleanEnding : (0 : UInt8) ∉ ending) (plain : slash ∉ ending) (nonempty : ending ≠ [])
    (names : Disk.asksDirectory path = false) : FileId.of path ≠ FileId.of (path ++ ending) := by
  intro same
  obtain ⟨front, last, whole, extended⟩ := splitOn_append_of_notMem plain path
  have cleanBoth : (0 : UInt8) ∉ path ++ ending := by simp [clean, cleanEnding]
  have comps : FileId.componentsOf path = FileId.componentsOf (path ++ ending) := by
    have components := congrArg FileId.components same
    simpa only [FileId.of, cString_of_notMem clean, cString_of_notMem cleanBoth] using components
  have proper : isComponent last = true := by
    simp only [Disk.asksDirectory, cString_of_notMem clean, whole] at names
    simpa [isComponent] using names
  have properBoth : isComponent (last ++ ending) = true := by
    simp only [isComponent, Bool.and_eq_true, decide_eq_true_eq, ne_eq] at proper ⊢
    refine ⟨fun empty => proper.1 (List.append_eq_nil_iff.mp empty).1, fun dot => ?_⟩
    have sizes := congrArg List.length dot
    have lastSize : last.length ≠ 0 := fun zero => proper.1 (List.length_eq_zero_iff.mp zero)
    have endingSize : ending.length ≠ 0 := fun zero => nonempty (List.length_eq_zero_iff.mp zero)
    simp only [List.length_append, List.length_cons, List.length_nil] at sizes
    omega
  rw [componentsOf_eq_filter, componentsOf_eq_filter, whole, extended, List.filter_append,
    List.filter_append, List.append_cancel_left_eq] at comps
  simp [proper, properBoth, nonempty] at comps

theorem mem_intercalate {separator b : UInt8} :
    ∀ {pieces : List Bytes}, b ∈ [separator].intercalate pieces →
      b = separator ∨ ∃ piece ∈ pieces, b ∈ piece := by
  intro pieces
  induction pieces with
  | nil => simp [List.intercalate]
  | cons first rest inductionHypothesis =>
      intro member
      cases rest with
      | nil => exact .inr ⟨first, List.mem_cons_self .., by simpa [List.intercalate] using member⟩
      | cons second others =>
          have shape : [separator].intercalate (first :: second :: others) =
              first ++ separator :: [separator].intercalate (second :: others) := by
            simp [List.intercalate]
          rw [shape, List.mem_append, List.mem_cons] at member
          rcases member with inFirst | same | inRest
          · exact .inr ⟨first, List.mem_cons_self .., inFirst⟩
          · exact .inl same
          · rcases inductionHypothesis inRest with same | ⟨piece, inPieces, inPiece⟩
            · exact .inl same
            · exact .inr ⟨piece, List.mem_cons_of_mem _ inPieces, inPiece⟩

/-- Normalising a clean path adds no zero byte. -/
theorem zero_notMem_resolveInSandbox {base path abs : Bytes} (nonempty : path ≠ [])
    (isRelative : path.head? ≠ some slash) (clean : occursIn (str "..") path = false)
    (zeroBase : (0 : UInt8) ∉ base) (zeroPath : (0 : UInt8) ∉ path)
    (resolved : resolveInSandbox base path = some abs) : (0 : UInt8) ∉ abs := by
  rw [resolveInSandbox_of_clean base nonempty isRelative clean] at resolved
  cases resolved
  have notSlash : (0 : UInt8) ≠ slash := by decide
  have inner : (0 : UInt8) ∉ [slash].intercalate (FileId.componentsOf path) := by
    intro member
    rcases mem_intercalate member with same | ⟨piece, inPieces, inPiece⟩
    · exact notSlash same
    · obtain ⟨before, after, shape⟩ := infix_of_mem_tokens (List.mem_filter.mp inPieces).1
      exact zeroPath (by simp [shape, inPiece])
  unfold join
  split <;> simp [zeroBase, inner, notSlash]

/-- A clean path names a file below its base. -/
theorem plainPath_below (base : Bytes) {path : Bytes} (clean : occursIn (str "..") path = false) :
    ∃ below, (FileId.of (plainPath base path)).components =
      FileId.componentsOf (cString base) ++ below ∧ str ".." ∉ below := by
  have noParent : str ".." ∉ FileId.componentsOf (cString path) := by
    intro member
    obtain ⟨before, after, shape⟩ := infix_of_mem_tokens (List.mem_filter.mp member).1
    have whole : path = cString path ++ path.dropWhile (· != 0) :=
      List.takeWhile_append_dropWhile.symm
    have occurs : occursIn (str "..") path = true :=
      (occursIn_iff (str "..")).mpr ⟨before, after ++ path.dropWhile (· != 0), by
        rw [← List.append_assoc, ← shape]
        exact whole⟩
    rw [clean] at occurs
    cases occurs
  unfold plainPath
  split
  · next empty => exact ⟨_, by simp [FileId.of, empty, cString, FileId.componentsOf], noParent⟩
  · by_cases zero : (0 : UInt8) ∈ base
    · refine ⟨[], ?_, List.not_mem_nil⟩
      simp [FileId.of, cString_append_of_mem zero]
    · have cutSlash : cString (slash :: path) = slash :: cString path := by simp [cString, slash]
      refine ⟨FileId.componentsOf (cString path), ?_, noParent⟩
      simp only [FileId.of]
      rw [cString_append_of_notMem zero, cutSlash, componentsOf_append_slash,
        cString_of_notMem zero]

end Opencodepp.Tools
