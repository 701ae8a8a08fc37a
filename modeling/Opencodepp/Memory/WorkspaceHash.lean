import Mathlib.Data.Set.List
import Opencodepp.Core.Error
import Opencodepp.Library.LineBuffer
import Opencodepp.Memory.SessionMemory

/-!
# The hash of a workspace

For every regular file outside `.git` there is a line of its path, a colon and the digest of its
content.  The lines are put in order, each is ended by a newline, and the digest of that text is
the hash of the workspace.  `resume` compares it with the hash that was recorded.

A path may hold colons and newlines, so one file can have the lines of several.  The hash tells
the files of two workspaces apart where no path of the one begins with a line of the other and a
newline (`workspaceHash_faithful`).
-/

set_option autoImplicit false

namespace Opencodepp.Memory

open Opencodepp.Core
open Opencodepp.Library
open Opencodepp.Store

/-! ## The files of a workspace -/

/-- A directory as the iterator goes through it.  A file has a content unless it cannot be
opened.  A link to a regular file has the path from the root to what it leads to.  Whatever else
is no regular file, such as a link to a directory or a pipe, is `special`. -/
inductive Dir
  | done
  | file (name : Bytes) (content : Option Bytes) (rest : Dir)
  | link (name rel : Bytes) (content : Option Bytes) (rest : Dir)
  | special (name : Bytes) (rest : Dir)
  | sub (name : Bytes) (items rest : Dir)
  deriving Repr, DecidableEq

/-- The regular files below a directory with their paths from the root; the iterator does not
follow links to directories. -/
def Dir.regularFiles (at_ : Bytes) : Dir → List (Bytes × Option Bytes)
  | .done => []
  | .file name content rest => (at_ ++ name, content) :: rest.regularFiles at_
  | .link _ rel content rest => (rel, content) :: rest.regularFiles at_
  | .special _ rest => rest.regularFiles at_
  | .sub name items rest => items.regularFiles (at_ ++ name ++ [slash]) ++ rest.regularFiles at_

def inGit (rels : Bytes) : Bool := (str ".git/").isPrefixOf rels || rels = str ".git"

/-- The regular files outside `.git` with their contents, as far as they can be read. -/
def Dir.hashedFiles (d : Dir) : List (Bytes × Bytes) :=
  (d.regularFiles []).filterMap fun f => if inGit f.1 then none else f.2.map (f.1, ·)

/-! ## The hash -/

section Hash

variable (hex : Bytes → Bytes)

/-- The line of a file; `hex` is the digest in hexadecimal digits. -/
def hashLine (f : Bytes × Bytes) : Bytes := f.1 ++ ch ':' :: hex f.2

/-- The lines as the set iterates over them. -/
def hashLines (d : Dir) : List Bytes := elements (d.hashedFiles.map (hashLine hex))

/-- The hash of a workspace; there is none where the root is no directory or the iterator
fails. -/
def workspaceHash : Option Dir → Except Failure Bytes
  | none => .error (.of .eToolReject)
  | some d => .ok (hex (writeDown 0x0a (hashLines hex d)))

end Hash

/-- Whether two workspaces have the same files with the same contents. -/
def SamePairs (before now : Dir) : Prop := ∀ f, f ∈ before.hashedFiles ↔ f ∈ now.hashedFiles

/-- Workspaces with the same files have the same hash, in whatever order the iterator finds
them. -/
theorem hashLines_of_samePairs (hex : Bytes → Bytes) {before now : Dir}
    (same : SamePairs before now) : hashLines hex before = hashLines hex now :=
  elements_eq_iff.mpr fun line => by
    rw [List.mem_map, List.mem_map]
    exact exists_congr fun f => and_congr_left' (same f)

/-! ## A digest that is injective -/

def isHexDigit (b : UInt8) : Bool := isDigit b || (0x61 ≤ b && b ≤ 0x66)

/-- A digest in hexadecimal digits that tells all contents apart. -/
structure Fingerprint where
  hex : Bytes → Bytes
  injective : Function.Injective hex
  digits : ∀ content, ∀ b ∈ hex content, isHexDigit b = true

theorem colon_notMem_hex (fp : Fingerprint) (content : Bytes) : ch ':' ∉ fp.hex content :=
  fun member => absurd (fp.digits content _ member) (by decide)

theorem newline_notMem_hex (fp : Fingerprint) (content : Bytes) : (0x0a : UInt8) ∉ fp.hex content :=
  fun member => absurd (fp.digits content _ member) (by decide)

theorem hashLine_injective (fp : Fingerprint) : Function.Injective (hashLine fp.hex) := by
  intro f f' same
  obtain ⟨paths, digests⟩ :=
    append_separator_inj (colon_notMem_hex fp _) (colon_notMem_hex fp _) same
  exact Prod.ext paths (fp.injective digests)

theorem hashLines_eq_iff (fp : Fingerprint) {before now : Dir} :
    hashLines fp.hex before = hashLines fp.hex now ↔ SamePairs before now := by
  refine ⟨fun same f => ?_, hashLines_of_samePairs fp.hex⟩
  have lines := elements_eq_iff.mp same (hashLine fp.hex f)
  rwa [List.mem_map_of_injective (hashLine_injective fp),
    List.mem_map_of_injective (hashLine_injective fp)] at lines

/-! ## What the hash is for -/

/-- The hash tells two workspaces apart just where their files differ, and a session that
recorded the hash of the one is resumed with a match in the other only where they do not. -/
structure HashFaithful (fp : Fingerprint) (before now : Dir) : Prop where
  hashes : workspaceHash fp.hex (some before) = workspaceHash fp.hex (some now) ↔
    SamePairs before now
  resumed : ∀ (s : MemStore) (sessionId : Bytes),
    workspaceHash fp.hex (some before) =
      .ok (resume s sessionId (workspaceHash fp.hex (some now)).toOption).workspaceHash →
    (resume s sessionId (workspaceHash fp.hex (some now)).toOption).workspaceMatches = true →
    SamePairs before now

/-- No path of the second workspace begins with a line of the first and a newline. -/
def NotSwallowed (fp : Fingerprint) (first second : Dir) : Prop :=
  ∀ f ∈ first.hashedFiles, ∀ g ∈ second.hashedFiles, ¬(hashLine fp.hex f ++ [0x0a]) <+: g.1

/-- A match is one of the hashes. -/
theorem resume_matches {s : MemStore} {sessionId : Bytes} {current : Option Bytes}
    (matched : (resume s sessionId current).workspaceMatches = true) :
    current = some (resume s sessionId current).workspaceHash := by
  unfold resume at matched ⊢
  split at matched
  · cases matched
  · next row =>
      rw [if_neg row]
      simp only [Bool.and_eq_true, decide_eq_true_eq] at matched
      exact matched.2

/-- A newline is in the path of a line or behind the line. -/
theorem prefix_path_of_prefix_line {fp : Fingerprint} {f : Bytes × Bytes} {text : Bytes}
    (starts : (text ++ [0x0a]) <+: hashLine fp.hex f) : (text ++ [0x0a]) <+: f.1 := by
  obtain ⟨rest, same⟩ := starts
  unfold hashLine at same
  rcases List.append_eq_append_iff.mp same with ⟨more, path, -⟩ | ⟨more, start, digest⟩
  · exact ⟨more, path.symm⟩
  · rcases List.eq_nil_or_concat more with none | ⟨front, last, shape⟩
    · rw [start, none, List.append_nil]
    · rw [List.concat_eq_append] at shape
      rw [shape, ← List.append_assoc] at start
      have ends : (0x0a : UInt8) = last := List.singleton_inj.mp (List.append_inj' start rfl).2
      have member : (0x0a : UInt8) ∈ ch ':' :: fp.hex f.2 := by
        rw [digest, shape, ends]
        simp
      rcases List.mem_cons.mp member with colon | inside
      · cases colon
      · exact absurd inside (newline_notMem_hex fp _)

/-- A path without a newline begins with no line and a newline. -/
theorem notSwallowed_of_plain (fp : Fingerprint) (first : Dir) {second : Dir}
    (plain : ∀ g ∈ second.hashedFiles, (0x0a : UInt8) ∉ g.1) : NotSwallowed fp first second :=
  fun _ _ g member starts => plain g member (starts.subset (by simp))

/-- Workspaces with the same text have the same lines. -/
theorem samePairs_of_workspaceHash {fp : Fingerprint} {before now : Dir}
    (first : NotSwallowed fp before now) (second : NotSwallowed fp now before)
    (same : workspaceHash fp.hex (some before) = workspaceHash fp.hex (some now)) :
    SamePairs before now := by
  have text : writeDown 0x0a (hashLines fp.hex before) = writeDown 0x0a (hashLines fp.hex now) :=
    fp.injective (Except.ok.inj same)
  refine (hashLines_eq_iff fp).mp (writeDown_inj ?_ text)
  intro line member line' member'
  obtain ⟨f, file, rfl⟩ := List.mem_map.mp (mem_elements.mp member)
  obtain ⟨f', file', rfl⟩ := List.mem_map.mp (mem_elements.mp member')
  exact ⟨fun starts => first f file f' file' (prefix_path_of_prefix_line starts),
    fun starts => second f' file' f file (prefix_path_of_prefix_line starts)⟩

/-- Where equal hashes come from the same files only, so do matches. -/
theorem hashFaithful_of_told {fp : Fingerprint} {before now : Dir}
    (told : workspaceHash fp.hex (some before) = workspaceHash fp.hex (some now) →
      SamePairs before now) : HashFaithful fp before now := by
  refine ⟨⟨told, fun same => ?_⟩, fun s sessionId recorded matched => told ?_⟩
  · show Except.ok _ = Except.ok _
    rw [hashLines_of_samePairs fp.hex same]
  · rw [recorded]
    exact congrArg Except.ok (Option.some.inj (resume_matches matched)).symm

/-! ## Any other workspace

Few workspaces have a hash that no other one has: where there are two files, the line of the one
can be put into the name of the other. -/

/-- Files one after the other. -/
def ofFiles : List (Bytes × Bytes) → Dir
  | [] => .done
  | f :: rest => .file f.1 (some f.2) (ofFiles rest)

theorem hashedFiles_ofFiles {files : List (Bytes × Bytes)}
    (outside : ∀ f ∈ files, inGit f.1 = false) : (ofFiles files).hashedFiles = files := by
  unfold Dir.hashedFiles
  induction files with
  | nil => rfl
  | cons f rest inductionHypothesis =>
      obtain ⟨first, others⟩ := List.forall_mem_cons.mp outside
      show ((f.1, some f.2) :: (ofFiles rest).regularFiles []).filterMap _ = f :: rest
      rw [List.filterMap_cons, inductionHypothesis others]
      simp [first]

theorem hashLines_ofFiles {hex : Bytes → Bytes} {files : List (Bytes × Bytes)}
    (outside : ∀ f ∈ files, inGit f.1 = false)
    (ordered : (files.map (hashLine hex)).Pairwise (· < ·)) :
    hashLines hex (ofFiles files) = files.map (hashLine hex) := by
  unfold hashLines
  rw [hashedFiles_ofFiles outside]
  exact elements_of_pairwise
    (ordered.imp fun less same => absurd (same ▸ less) (List.lt_irrefl _))
    (ordered.imp List.le_of_lt)

theorem pairwise_lt_elements (lines : List Bytes) : (elements lines).Pairwise (· < ·) :=
  ((pairwise_le_elements lines).and (nodup_elements lines)).imp fun both =>
    (List.le_iff_lt_or_eq.mp both.1).resolve_right both.2

theorem lt_append_of_lt {line line' : Bytes} (below : line < line') (more : Bytes) :
    line < line' ++ more :=
  Std.lt_of_lt_of_le below List.le_append_left

/-- The lines of a workspace are those of its files, in order. -/
theorem hashLines_eq_map (fp : Fingerprint) (d : Dir) :
    ∃ files : List (Bytes × Bytes), hashLines fp.hex d = files.map (hashLine fp.hex) ∧
      (∀ f, f ∈ files ↔ f ∈ d.hashedFiles) ∧
      (files.map (hashLine fp.hex)).Pairwise (· < ·) := by
  have lines : hashLines fp.hex d ∈ Set.range (List.map (hashLine fp.hex)) := by
    rw [Set.range_list_map]
    intro line member
    obtain ⟨f, -, shape⟩ := List.mem_map.mp (mem_elements.mp member)
    exact ⟨f, shape⟩
  obtain ⟨files, same⟩ := lines
  refine ⟨files, same.symm, fun f => ?_, ?_⟩
  · rw [← List.mem_map_of_injective (hashLine_injective fp), same, hashLines, mem_elements,
      List.mem_map_of_injective (hashLine_injective fp)]
  · rw [same]
    exact pairwise_lt_elements _

/-- What stands behind the colon of a line does not bring its path into `.git`. -/
theorem inGit_append_colon {path : Bytes} (outside : inGit path = false) (more : Bytes) :
    inGit (path ++ ch ':' :: more) = false := by
  unfold inGit at outside ⊢
  rw [Bool.or_eq_false_iff, decide_eq_false_iff_not] at outside ⊢
  refine ⟨Bool.eq_false_iff.mpr fun starts => ?_, fun same => ?_⟩
  · obtain ⟨rest, same⟩ := List.isPrefixOf_iff_prefix.mp starts
    rcases List.append_eq_append_iff.mp same with ⟨front, shorter, -⟩ | ⟨front, longer, colon⟩
    · exact Bool.eq_false_iff.mp outside.1
        (List.isPrefixOf_iff_prefix.mpr ⟨front, shorter.symm⟩)
    · cases front with
      | nil =>
          rw [List.append_nil] at longer
          exact Bool.eq_false_iff.mp outside.1
            (List.isPrefixOf_iff_prefix.mpr (longer ▸ List.prefix_refl _))
      | cons b front =>
          have member : ch ':' ∈ str ".git/" := by
            rw [longer, (List.cons.inj colon).1]
            simp
          exact absurd member (by decide)
  · have member : ch ':' ∈ str ".git" := by
      rw [← same]
      simp
    exact absurd member (by decide)

theorem ne_hashLine_append {hex : Bytes → Bytes} (f : Bytes × Bytes) (more : Bytes) :
    f.1 ≠ hashLine hex f ++ more := by
  intro same
  have length := congrArg List.length same
  simp only [hashLine, List.length_append, List.length_cons] at length
  omega

/-- The path of a file is a line and the path of a file behind it, both outside `.git`, and the
line comes before the one behind it. -/
def HoldsLine (fp : Fingerprint) (f : Bytes × Bytes) : Prop :=
  ∃ g rest, f.1 = hashLine fp.hex g ++ 0x0a :: rest ∧ inGit g.1 = false ∧ inGit rest = false ∧
    hashLine fp.hex g < hashLine fp.hex (rest, f.2)

/-- A workspace has one file at most, and its path holds no line. -/
structure Unmistakable (fp : Fingerprint) (d : Dir) : Prop where
  single : ∀ f ∈ d.hashedFiles, ∀ g ∈ d.hashedFiles, f = g
  whole : ∀ f ∈ d.hashedFiles, ¬HoldsLine fp f

theorem outside_of_mem_hashedFiles {d : Dir} {f : Bytes × Bytes} (member : f ∈ d.hashedFiles) :
    inGit f.1 = false := by
  obtain ⟨e, -, kept⟩ := List.mem_filterMap.mp member
  split at kept
  · cases kept
  · next outside =>
      obtain ⟨content, -, rfl⟩ := Option.map_eq_some_iff.mp kept
      exact Bool.eq_false_iff.mpr outside

/-- Files with the lines of a workspace that are cut in another way. -/
theorem same_of_text {fp : Fingerprint} {before : Dir} {files : List (Bytes × Bytes)}
    (faithful : ∀ now, HashFaithful fp before now) (outside : ∀ f ∈ files, inGit f.1 = false)
    (ordered : (files.map (hashLine fp.hex)).Pairwise (· < ·))
    (text : writeDown 0x0a (hashLines fp.hex before) =
      writeDown 0x0a (files.map (hashLine fp.hex))) {f : Bytes × Bytes} :
    f ∈ before.hashedFiles ↔ f ∈ files := by
  have hashes : workspaceHash fp.hex (some before) = workspaceHash fp.hex (some (ofFiles files)) := by
    show Except.ok _ = Except.ok _
    rw [text, hashLines_ofFiles outside ordered]
  have same := (faithful _).hashes.mp hashes f
  rwa [hashedFiles_ofFiles outside] at same

/-- The line of the last file but one is put into the name of the last one. -/
theorem single_of_faithful {fp : Fingerprint} {before : Dir}
    (faithful : ∀ now, HashFaithful fp before now) :
    ∀ f ∈ before.hashedFiles, ∀ g ∈ before.hashedFiles, f = g := by
  obtain ⟨files, lines, members, ordered⟩ := hashLines_eq_map fp before
  intro f file g file'
  rw [← members] at file file'
  rcases List.eq_nil_or_concat files with none | ⟨front, last, shape⟩
  · rw [none] at file
    cases file
  rw [List.concat_eq_append] at shape
  rcases List.eq_nil_or_concat front with none | ⟨front, next, shape'⟩
  · rw [shape, none, List.nil_append, List.mem_singleton] at file file'
    rw [file, file']
  exfalso
  rw [List.concat_eq_append] at shape'
  subst shape' shape
  rw [List.map_append, List.map_append, List.pairwise_append, List.pairwise_append] at ordered
  obtain ⟨⟨first, -, below⟩, -, belowLast⟩ := ordered
  have inFiles : next ∈ front ++ [next] ++ [last] := by simp
  have outside := outside_of_mem_hashedFiles ((members next).mp inFiles)
  let joined : Bytes × Bytes := (hashLine fp.hex next ++ 0x0a :: last.1, last.2)
  have line : hashLine fp.hex joined =
      hashLine fp.hex next ++ 0x0a :: hashLine fp.hex last := by
    simp [joined, hashLine]
  have again : next ∈ front ++ [joined] := by
    refine (same_of_text faithful ?_ ?_ ?_).mp ((members next).mp inFiles)
    · intro e member
      rcases List.mem_append.mp member with early | late
      · exact outside_of_mem_hashedFiles ((members e).mp (by simp [early]))
      · rw [List.mem_singleton.mp late]
        show inGit (hashLine fp.hex next ++ _) = false
        rw [hashLine, List.append_assoc, List.cons_append]
        exact inGit_append_colon outside _
    · rw [List.map_append, List.pairwise_append]
      refine ⟨first, List.pairwise_singleton _ _, fun line' early joined' last' => ?_⟩
      rw [List.map_singleton, List.mem_singleton] at last'
      rw [last', line]
      exact lt_append_of_lt (below line' early _ (by simp)) _
    · rw [lines, List.map_append, List.map_append, List.map_append, List.map_singleton,
        List.map_singleton, List.map_singleton, line]
      simp [writeDown]
  rcases List.mem_append.mp again with early | late
  · exact absurd (below _ (List.mem_map_of_mem early) _ (by simp)) (List.lt_irrefl _)
  · exact ne_hashLine_append next _ (congrArg Prod.fst (List.mem_singleton.mp late))

/-- The one file of a workspace is taken for the two that its name holds. -/
theorem whole_of_faithful {fp : Fingerprint} {before : Dir}
    (faithful : ∀ now, HashFaithful fp before now) :
    ∀ f ∈ before.hashedFiles, ¬HoldsLine fp f := by
  rintro f file ⟨g, rest, path, outside, outside', below⟩
  have only : hashLines fp.hex before = [hashLine fp.hex f] := by
    refine (elements_eq_iff.mpr fun line => ?_).trans
      (elements_of_pairwise (List.nodup_singleton _) (List.pairwise_singleton _ _))
    rw [List.mem_map, List.mem_singleton]
    refine ⟨?_, fun same => ⟨f, file, same.symm⟩⟩
    rintro ⟨f', file', rfl⟩
    rw [single_of_faithful faithful f' file' f file]
  have text : writeDown 0x0a (hashLines fp.hex before) =
      writeDown 0x0a ([g, (rest, f.2)].map (hashLine fp.hex)) := by
    rw [only]
    simp [writeDown, hashLine, path]
  have again : f ∈ [g, (rest, f.2)] := by
    refine (same_of_text faithful ?_ ?_ text).mp file
    · rintro e (_ | ⟨_, _ | ⟨_, ⟨⟩⟩⟩)
      · exact outside
      · exact outside'
    · simpa using below
  rcases List.mem_pair.mp again with rfl | same
  · exact ne_hashLine_append f _ path
  · have length := congrArg List.length ((congrArg Prod.fst same).symm.trans path)
    simp only [List.length_append, List.length_cons] at length
    omega

/-- Lines behind a first one are one line whose path begins with the path of the second. -/
theorem behind_first (fp : Fingerprint) (files : List (Bytes × Bytes)) (g : Bytes × Bytes)
    (outside : ∀ f ∈ g :: files, inGit f.1 = false) :
    ∃ rest content, writeDown 0x0a ((g :: files).map (hashLine fp.hex)) =
        hashLine fp.hex (rest, content) ++ [0x0a] ∧ inGit rest = false ∧
      hashLine fp.hex g <+: hashLine fp.hex (rest, content) := by
  induction files generalizing g with
  | nil =>
      refine ⟨g.1, g.2, ?_, outside g (by simp), List.prefix_refl _⟩
      simp [writeDown]
  | cons g' files inductionHypothesis =>
      obtain ⟨first, others⟩ := List.forall_mem_cons.mp outside
      obtain ⟨rest, content, text, -, -⟩ := inductionHypothesis g' others
      refine ⟨hashLine fp.hex g ++ 0x0a :: rest, content, ?_, ?_, ?_⟩
      · rw [List.map_cons, writeDown_cons, text]
        simp [hashLine]
      · rw [hashLine, List.append_assoc, List.cons_append]
        exact inGit_append_colon first _
      · exact ⟨0x0a :: hashLine fp.hex (rest, content), by simp [hashLine]⟩

theorem faithful_of_unmistakable {fp : Fingerprint} {before : Dir}
    (unmistakable : Unmistakable fp before) (now : Dir) : HashFaithful fp before now := by
  refine hashFaithful_of_told fun hashes => (hashLines_eq_iff fp).mp ?_
  have text : writeDown 0x0a (hashLines fp.hex before) = writeDown 0x0a (hashLines fp.hex now) :=
    fp.injective (Except.ok.inj hashes)
  obtain ⟨files, lines, members, ordered⟩ := hashLines_eq_map fp before
  obtain ⟨files', lines', members', ordered'⟩ := hashLines_eq_map fp now
  rw [lines, lines'] at text ⊢
  cases files with
  | nil =>
      cases files' with
      | nil => rfl
      | cons g more => simp [writeDown] at text
  | cons f others =>
      have alone : others = [] := by
        cases others with
        | nil => rfl
        | cons f' others =>
            have same := unmistakable.single f ((members f).mp (by simp)) f'
              ((members f').mp (by simp))
            have less : hashLine fp.hex f < hashLine fp.hex f' :=
              List.rel_of_pairwise_cons ordered (by simp)
            rw [same] at less
            exact absurd less (List.lt_irrefl _)
      subst alone
      rw [List.map_singleton, writeDown_cons] at text
      cases files' with
      | nil => simp [writeDown] at text
      | cons g more =>
          cases more with
          | nil =>
              rw [List.map_singleton, writeDown_cons] at text
              have same : hashLine fp.hex f = hashLine fp.hex g := by simpa [writeDown] using text
              rw [List.map_singleton, List.map_singleton, same]
          | cons g' more =>
              exfalso
              have outside (e : Bytes × Bytes) (member : e ∈ g :: g' :: more) :
                  inGit e.1 = false := outside_of_mem_hashedFiles ((members' e).mp member)
              obtain ⟨rest, content, behind, outside', starts⟩ :=
                behind_first fp more g' fun e member => outside e (by simp [member])
              rw [List.map_cons, writeDown_cons, behind] at text
              have whole : f.1 ++ ch ':' :: fp.hex f.2 =
                  (hashLine fp.hex g ++ 0x0a :: rest) ++ ch ':' :: fp.hex content := by
                refine (List.append_left_inj [0x0a]).mp ?_
                simpa [writeDown, hashLine] using text
              obtain ⟨path, digests⟩ :=
                append_separator_inj (colon_notMem_hex fp _) (colon_notMem_hex fp _) whole
              refine unmistakable.whole f ((members f).mp (by simp))
                ⟨g, rest, path, outside g (by simp), outside', ?_⟩
              rw [fp.injective digests]
              obtain ⟨tail, same⟩ := starts
              rw [← same]
              exact lt_append_of_lt (List.rel_of_pairwise_cons ordered' (by simp)) _

/-- **The hash tells the files of two workspaces apart** where no path of the one begins with a
line of the other and a newline; and the hash of a workspace tells its files from those of every
other one if and only if there is one file at most, whose path holds no line. -/
theorem workspaceHash_faithful (fp : Fingerprint) (before : Dir) :
    (∀ now, NotSwallowed fp before now → NotSwallowed fp now before →
      HashFaithful fp before now) ∧
    ((∀ now, HashFaithful fp before now) ↔ Unmistakable fp before) :=
  ⟨fun _ first second => hashFaithful_of_told (samePairs_of_workspaceHash first second),
    fun faithful => ⟨single_of_faithful faithful, whole_of_faithful faithful⟩,
    faithful_of_unmistakable⟩

/-! ## A file whose name is a line -/

/-- Two files with one letter each for a name. -/
def twoFiles (x y : Bytes) : Dir :=
  .file (str "a") (some x) (.file (str "b") (some y) .done)

/-- One file whose name is the line of the first, a newline and the name of the second. -/
def joinedFile (hex : Bytes → Bytes) (x y : Bytes) : Dir :=
  .file (hashLine hex (str "a", x) ++ 0x0a :: str "b") (some y) .done

/-- Whatever the digest, the two workspaces have the same text. -/
theorem workspaceHash_joinedFile (hex : Bytes → Bytes) (x y : Bytes) :
    workspaceHash hex (some (joinedFile hex x y)) = workspaceHash hex (some (twoFiles x y)) := by
  have files : (twoFiles x y).hashedFiles = [(str "a", x), (str "b", y)] := rfl
  have file : (joinedFile hex x y).hashedFiles =
      [(hashLine hex (str "a", x) ++ 0x0a :: str "b", y)] := rfl
  have below : hashLine hex (str "a", x) < hashLine hex (str "b", y) :=
    List.cons_lt_cons_iff.mpr (.inl (by decide))
  have lines : hashLines hex (twoFiles x y) =
      [hashLine hex (str "a", x), hashLine hex (str "b", y)] := by
    unfold hashLines
    rw [files]
    exact elements_of_pairwise (by simpa using fun same => absurd (same ▸ below) (List.lt_irrefl _))
      (by simpa using List.le_of_lt below)
  have line : hashLines hex (joinedFile hex x y) =
      [hashLine hex (hashLine hex (str "a", x) ++ 0x0a :: str "b", y)] := by
    unfold hashLines
    rw [file]
    rfl
  show Except.ok (hex _) = Except.ok (hex _)
  rw [lines, line]
  simp [writeDown, hashLine]

def hexDigitOf (n : Nat) : UInt8 := (str "0123456789abcdef").getD n 0

/-- Two digits a byte: a digest as long as the content. -/
def plainHex (content : Bytes) : Bytes :=
  content.flatMap fun b => [hexDigitOf (b.toNat / 16), hexDigitOf (b.toNat % 16)]

theorem isHexDigit_hexDigitOf : ∀ n < 16, isHexDigit (hexDigitOf n) = true := by decide

theorem hexDigitOf_inj : ∀ n < 16, ∀ m < 16, hexDigitOf n = hexDigitOf m → n = m := by decide

theorem plainHex_injective : Function.Injective plainHex := by
  intro content
  induction content with
  | nil =>
      intro content' same
      cases content' with
      | nil => rfl
      | cons b' rest' => cases same
  | cons b rest inductionHypothesis =>
      intro content' same
      cases content' with
      | nil => cases same
      | cons b' rest' =>
          obtain ⟨high, others⟩ := List.cons.inj same
          obtain ⟨low, rests⟩ := List.cons.inj others
          have high := hexDigitOf_inj _ (by have := b.toNat_lt; omega) _
            (by have := b'.toNat_lt; omega) high
          have low := hexDigitOf_inj _ (by omega) _ (by omega) low
          have same : b = b' := UInt8.toNat_inj.mp (by omega)
          rw [same, inductionHypothesis rests]

theorem isHexDigit_of_mem_plainHex (content : Bytes) :
    ∀ b ∈ plainHex content, isHexDigit b = true := by
  intro b member
  obtain ⟨c, -, digit⟩ := List.mem_flatMap.mp member
  have := c.toNat_lt
  rcases List.mem_pair.mp digit with rfl | rfl
  · exact isHexDigit_hexDigitOf _ (by omega)
  · exact isHexDigit_hexDigitOf _ (by omega)

def plainFingerprint : Fingerprint := ⟨plainHex, plainHex_injective, isHexDigit_of_mem_plainHex⟩

/-- A name that a file can have. -/
def legalName (name : Bytes) : Bool :=
  name ≠ [] && !name.contains 0 && !name.contains slash && name ≠ str "." && name ≠ str ".."

def Dir.names : Dir → List Bytes
  | .done => []
  | .file name _ rest | .link name _ _ rest | .special name rest | .sub name _ rest =>
      name :: rest.names

/-- Whether all names can be had, and no two in one directory are the same. -/
def Dir.legal : Dir → Bool
  | .done => true
  | .file name _ rest | .link name _ _ rest | .special name rest =>
      legalName name && !rest.names.contains name && rest.legal
  | .sub name items rest =>
      legalName name && !rest.names.contains name && items.legal && rest.legal

instance (fp : Fingerprint) (first second : Dir) : Decidable (NotSwallowed fp first second) :=
  List.decidableBAll (fun f => ∀ g ∈ second.hashedFiles,
    ¬(hashLine fp.hex f ++ [0x0a]) <+: g.1) first.hashedFiles

/-- A newline in a name does no harm by itself. -/
def newlineFile : Dir := .sub (str "b") (.file (str "c\nd") (some (str "y")) .done) .done

/-- The files `a` and `b` do not have the hash of a file `b/c\nd`, nor that of a single file. -/
theorem workspaceHash_faithful_newline :
    HashFaithful plainFingerprint (twoFiles (str "x") (str "y")) newlineFile ∧
      ∀ now, HashFaithful plainFingerprint newlineFile now := by
  refine ⟨(workspaceHash_faithful plainFingerprint _).1 _ (by decide)
      (notSwallowed_of_plain plainFingerprint _ (by decide)),
    (workspaceHash_faithful plainFingerprint newlineFile).2.mpr ⟨by decide, ?_⟩⟩
  have files : newlineFile.hashedFiles = [(str "b/c\nd", str "y")] := by decide
  rw [files]
  rintro f member ⟨g, rest, path, -⟩
  rw [List.mem_singleton.mp member] at path
  have colon : ch ':' ∈ str "b/c\nd" := by
    rw [show str "b/c\nd" = _ from path, hashLine]
    simp
  exact absurd colon (by decide)

/-- The files `a` and `b` have the hash of one file with a newline in its name. -/
theorem joinedFile_matches :
    (twoFiles (str "x") (str "y")).legal = true ∧
      (joinedFile plainHex (str "x") (str "y")).legal = true ∧
      ¬HashFaithful plainFingerprint (twoFiles (str "x") (str "y"))
        (joinedFile plainHex (str "x") (str "y")) := by
  refine ⟨by decide, by decide, fun faithful => ?_⟩
  have same := faithful.hashes.mp (workspaceHash_joinedFile plainHex _ _).symm
  exact absurd ((same (str "a", str "x")).mp (by decide)) (by decide)

end Opencodepp.Memory
