import Opencodepp.Library.FileChanges
import Opencodepp.Tools.Write

/-!
# What file.write leaves alone

A write is to change its target and nothing else, and nothing at all when it fails, whatever
create, write or rename is refused on the way.  The tool works with a temporary file and a shadow
copy under names beside the target, and takes it that nothing is there: what it finds under them
is overwritten and removed.  Where the names are clean (`CleanNames`) the frame is kept under
every schedule of faults, one lemma for each thing the target can be (`frameKept_of_new`,
`frameKept_of_file`, `frameKept_of_dir`).
-/

set_option autoImplicit false

namespace Opencodepp.Tools

open Opencodepp.Core
open Opencodepp.Library
open Opencodepp.Library.Disk

/-! ## The names beside a target -/

abbrev tmpOf (path : Bytes) : Bytes := path ++ str ".opencode_tmp"

abbrev shadowOf (path : Bytes) : Bytes := path ++ str ".opencode_shadow"

/-- An ending for a name: it stays within the last component, and makes one even of a dot. -/
def IsEnding (ending : Bytes) : Prop :=
  (0 : UInt8) ∉ ending ∧ slash ∉ ending ∧ (ending = [] ∨ 2 ≤ ending.length)

instance (ending : Bytes) : Decidable (IsEnding ending) := inferInstanceAs (Decidable (_ ∧ _ ∧ _))

/-- The components of a name with an ending: those before the last, and the last with the ending
when it is a proper one. -/
theorem components_append {path : Bytes} (clean : (0 : UInt8) ∉ path) :
    ∃ (front : List Bytes) (last : Bytes), ∀ ending, IsEnding ending →
      (FileId.of (path ++ ending)).components =
        front ++ if ending = [] ∧ isComponent last = false then [] else [last ++ ending] := by
  obtain ⟨front, last, whole, -⟩ := splitOn_append_of_notMem (List.not_mem_nil) path
  refine ⟨front.filter isComponent, last, fun ending isEnding => ?_⟩
  obtain ⟨noZero, plain, short⟩ := isEnding
  obtain ⟨front', last', whole', extended⟩ := splitOn_append_of_notMem plain path
  obtain ⟨rfl, lasts⟩ := List.append_inj' (whole.symm.trans whole') rfl
  obtain rfl := List.singleton_inj.mp lasts
  have cleanBoth : (0 : UInt8) ∉ path ++ ending := by simp [clean, noZero]
  rw [FileId.of, cString_of_notMem cleanBoth]
  dsimp only
  rw [componentsOf_eq_filter, extended, List.filter_append]
  congr 1
  obtain rfl | long := short
  · rw [List.append_nil]
    cases proper : isComponent last <;> simp [proper]
  · have nonempty : ending ≠ [] := by
      rintro rfl
      simp at long
    have proper : isComponent (last ++ ending) = true := by
      simp only [isComponent, Bool.and_eq_true, decide_eq_true_eq, ne_eq]
      refine ⟨fun empty => nonempty (List.append_eq_nil_iff.mp empty).2, fun dot => ?_⟩
      have sizes := congrArg List.length dot
      simp only [List.length_append, List.length_cons, List.length_nil] at sizes
      omega
    rw [List.filter_cons_of_pos proper, if_neg fun both => nonempty both.1]
    rfl

theorem fileId_append_inj {path : Bytes} (clean : (0 : UInt8) ∉ path) {first second : Bytes}
    (isFirst : IsEnding first) (isSecond : IsEnding second)
    (same : FileId.of (path ++ first) = FileId.of (path ++ second)) : first = second := by
  obtain ⟨front, last, components⟩ := components_append clean
  have both := congrArg FileId.components same
  rw [components first isFirst, components second isSecond, List.append_cancel_left_eq] at both
  split at both <;> split at both
  · next one other => rw [one.1, other.1]
  · cases both
  · cases both
  · exact List.append_cancel_left (List.singleton_inj.mp both)

/-- No name beside a target lies in another. -/
theorem parent_append_ne {path : Bytes} (clean : (0 : UInt8) ∉ path) {first second : Bytes}
    (isFirst : IsEnding first) (isSecond : IsEnding second) (nonempty : second ≠ []) :
    (FileId.of (path ++ first)).parent ≠ FileId.of (path ++ second) := by
  obtain ⟨front, last, components⟩ := components_append clean
  intro same
  have both := congrArg (fun id => id.components.length) same
  simp only [FileId.parent, components first isFirst, components second isSecond,
    List.length_dropLast, List.length_append, nonempty, false_and, if_false,
    List.length_singleton] at both
  split at both <;> simp only [List.length_nil, List.length_singleton] at both <;> omega

/-- The four names of a write are different, and the shadow is no directory of theirs. -/
structure Apart (target : Bytes) : Prop where
  targetTmp : FileId.of target ≠ .of (tmpOf target)
  targetShadow : FileId.of target ≠ .of (shadowOf target)
  targetShadowTmp : FileId.of target ≠ .of (tmpOf (shadowOf target))
  tmpShadow : FileId.of (tmpOf target) ≠ .of (shadowOf target)
  tmpShadowTmp : FileId.of (tmpOf target) ≠ .of (tmpOf (shadowOf target))
  shadowShadowTmp : FileId.of (shadowOf target) ≠ .of (tmpOf (shadowOf target))
  shadowProper : (FileId.of (shadowOf target)).components ≠ []
  targetOutside : (FileId.of target).parent ≠ .of (shadowOf target)
  tmpOutside : (FileId.of (tmpOf target)).parent ≠ .of (shadowOf target)
  shadowOutside : (FileId.of (shadowOf target)).parent ≠ .of (shadowOf target)
  shadowTmpOutside : (FileId.of (tmpOf (shadowOf target))).parent ≠ .of (shadowOf target)

theorem apart_of_clean {target : Bytes} (clean : (0 : UInt8) ∉ target) : Apart target := by
  have none : IsEnding [] := by decide
  have tmp : IsEnding (str ".opencode_tmp") := by decide
  have shadow : IsEnding (str ".opencode_shadow") := by decide
  have shadowTmp : IsEnding (str ".opencode_shadow" ++ str ".opencode_tmp") := by decide
  have names := fun {first second : Bytes} (isFirst : IsEnding first) (isSecond : IsEnding second)
    (differ : first ≠ second) same => differ (fileId_append_inj clean isFirst isSecond same)
  have outside := fun {first : Bytes} (isFirst : IsEnding first) =>
    parent_append_ne clean isFirst shadow (by decide)
  have whole : target ++ [] = target := List.append_nil target
  have twice : tmpOf (shadowOf target) =
      target ++ (str ".opencode_shadow" ++ str ".opencode_tmp") := List.append_assoc ..
  refine ⟨?_, ?_, ?_, ?_, ?_, ?_, ?_, ?_, ?_, ?_, ?_⟩
  · simpa only [whole] using names none tmp (by decide)
  · simpa only [whole] using names none shadow (by decide)
  · simpa only [whole, twice] using names none shadowTmp (by decide)
  · exact names tmp shadow (by decide)
  · simpa only [twice] using names tmp shadowTmp (by decide)
  · simpa only [twice] using names shadow shadowTmp (by decide)
  · obtain ⟨front, last, components⟩ := components_append clean
    have ending : str ".opencode_shadow" ≠ [] := by decide
    rw [components _ shadow, if_neg fun both => ending both.1]
    exact List.append_ne_nil_of_right_ne_nil _ (List.cons_ne_nil _ _)
  · simpa only [whole] using outside none
  · exact outside tmp
  · exact outside shadow
  · simpa only [twice] using outside shadowTmp

/-- Behind a zero byte all names are one. -/
theorem cString_beside {path : Bytes} (zero : (0 : UInt8) ∈ path) (ending : Bytes) :
    cString (path ++ ending) = cString path :=
  cString_append_of_mem zero ending

/-! ## One atomic write -/

/-- The removal of the temporary file is not refused. -/
def SparesTmp (path content : Bytes) (d : Disk) : Prop :=
  match d.write (tmpOf path) content with
  | (.unopened, _) => True
  | (.failed, d) => d.fate = .none
  | (.complete, d) =>
      match d.rename (tmpOf path) path with
      | (true, _) => True
      | (false, d) => d.fate = .none

/-- What an atomic write does to the tree. -/
inductive AtomicEffect (path content : Bytes) (d : Disk) : Except Failure Unit × Disk → Prop
  | nothing {failure : Failure} {d' : Disk} (same : d'.node = d.node) :
      AtomicEffect path content d (.error failure, d')
  | cleaned {failure : Failure} {d' : Disk} (opens : d.Opens (tmpOf path))
      (node : d'.node = Function.update d.node (.of (tmpOf path)) none) :
      AtomicEffect path content d (.error failure, d')
  | renamed {d' : Disk} (opens : d.Opens (tmpOf path)) (creatable : d.canCreate path = true)
      (notDir : d.node (.of path) ≠ some .dir)
      (node : d'.node = Function.update (Function.update d.node (.of (tmpOf path)) none) (.of path)
        (some (.file content))) :
      AtomicEffect path content d (.ok (), d')

section Atomic

variable {path content : Bytes} {d d' : Disk}

/-- The tree with the temporary file. -/
def withTmp (path written : Bytes) (d : Disk) : Disk :=
  (d.set (.of (tmpOf path)) (.file written)).tick

theorem node_withTmp (opens : d.Opens (tmpOf path)) (written : Bytes) :
    (withTmp path written d).node =
      Function.update d.node (.of (tmpOf path)) (some (.file written)) :=
  node_set opens.proper _

theorem dirs_update {id : FileId} {n : Option Node} (before : d.node id ≠ some .dir)
    (after : n ≠ some .dir) (node : d'.node = Function.update d.node id n) (other : FileId) :
    d'.node other = some .dir ↔ d.node other = some .dir := by
  rw [node]
  by_cases same : other = id
  · rw [same, Function.update_self]
    exact ⟨fun dir => absurd dir after, fun dir => absurd dir before⟩
  · rw [Function.update_of_ne same]

theorem dirs_withTmp (opens : d.Opens (tmpOf path)) (written : Bytes) (id : FileId) :
    (withTmp path written d).node id = some .dir ↔ d.node id = some .dir :=
  dirs_update opens.node_ne_dir (by simp) (node_withTmp opens written) id

theorem entry_withTmp (opens : d.Opens (tmpOf path)) (written : Bytes) :
    (withTmp path written d).entry (tmpOf path) = some (.file written) := by
  rw [entry_of_canCreate ((canCreate_congr (dirs_withTmp opens written)).trans opens.1),
    node_withTmp opens, Function.update_self]

theorem canCreate_withTmp (opens : d.Opens (tmpOf path)) (written name : Bytes) :
    (withTmp path written d).canCreate name = d.canCreate name :=
  canCreate_congr (dirs_withTmp opens written)

/-- Removing the temporary file. -/
theorem node_remove_tmp (opens : d.Opens (tmpOf path)) {written : Bytes}
    (node : d'.node = (withTmp path written d).node) (steady : d'.fate = .none) :
    (d'.remove (tmpOf path)).node = Function.update d.node (.of (tmpOf path)) none := by
  have found : d'.entry (tmpOf path) = some (.file written) :=
    (entry_congr (congrFun node _)).trans (entry_withTmp opens written)
  rw [node_remove_of_removable (removable_of_file found) steady opens.proper, node,
    node_withTmp opens, Function.update_idem]

/-- The moves goes through when the target can be created and is no directory. -/
theorem rename_withTmp (opens : d.Opens (tmpOf path)) (written : Bytes) :
    (withTmp path written d).rename (tmpOf path) path =
      if d.canCreate path = true ∧ d.node (.of path) ≠ some .dir ∧
          (withTmp path written d).fate = .none then
        (true, (((withTmp path written d).unset (.of (tmpOf path))).set (.of path)
          (.file written)).tick)
      else (false, (withTmp path written d).tick) := by
  have allowed : (d.canCreate path && (withTmp path written d).entry path ≠ some .dir &&
      (withTmp path written d).fate = .none) = true ↔
        d.canCreate path = true ∧ d.node (.of path) ≠ some .dir ∧
          (withTmp path written d).fate = .none := by
    simp only [Bool.and_eq_true, decide_eq_true_eq, and_assoc]
    refine and_congr_right fun creatable => and_congr_left fun _ => not_congr ?_
    rw [entry_of_canCreate ((canCreate_withTmp opens written path).trans creatable)]
    exact dirs_withTmp opens written _
  rw [rename, entry_withTmp opens]
  dsimp only
  rw [canCreate_withTmp opens]
  exact if_congr allowed rfl rfl

theorem node_renamed (opens : d.Opens (tmpOf path)) (creatable : d.canCreate path = true)
    (notDir : d.node (.of path) ≠ some .dir) (written : Bytes) :
    (((withTmp path written d).unset (.of (tmpOf path))).set (.of path)
        (.file written)).tick.node =
      Function.update (Function.update d.node (.of (tmpOf path)) none) (.of path)
        (some (.file written)) := by
  have proper := d.components_of_canCreate creatable (entry_of_canCreate creatable ▸ notDir)
  change (((withTmp path written d).unset (.of (tmpOf path))).set (.of path) _).node = _
  rw [node_set proper, node_unset opens.proper, node_withTmp opens, Function.update_idem]

/-- **An atomic write does nothing, or loses its temporary file, or puts the content in place of
the target and the temporary file.** -/
theorem atomicEffect (spares : SparesTmp path content d) :
    AtomicEffect path content d (writeFileAtomic path content d) := by
  unfold SparesTmp at spares
  unfold writeFileAtomic
  dsimp only
  by_cases opens : d.Opens (tmpOf path)
  · rw [write_of_opens opens] at spares ⊢
    cases fate : d.fate with
    | refuse => exact .nothing rfl
    | short n =>
        rw [fate] at spares
        exact .cleaned opens (node_remove_tmp opens rfl spares)
    | none =>
        rw [fate] at spares
        dsimp only at spares ⊢
        have moves : (d.set (.of (tmpOf path)) (.file content)).tick.rename (tmpOf path) path =
            _ := rename_withTmp opens content
        by_cases allowed : d.canCreate path = true ∧ d.node (.of path) ≠ some .dir ∧
            (withTmp path content d).fate = .none
        · rw [moves, if_pos allowed]
          exact .renamed opens allowed.1 allowed.2.1
            (node_renamed opens allowed.1 allowed.2.1 content)
        · rw [moves, if_neg allowed] at spares
          rw [moves, if_neg allowed]
          exact .cleaned opens (node_remove_tmp opens rfl spares)
  · rw [write_of_not_opens opens]
    exact .nothing rfl

/-- Directories are not touched. -/
theorem AtomicEffect.dirs {outcome : Except Failure Unit × Disk}
    (effect : AtomicEffect path content d outcome) (id : FileId) :
    outcome.2.node id = some .dir ↔ d.node id = some .dir := by
  cases effect with
  | nothing same => rw [same]
  | cleaned opens node => exact dirs_update opens.node_ne_dir (by simp) node id
  | renamed opens creatable notDir node =>
      rw [node]
      by_cases isTarget : id = .of path
      · rw [isTarget, Function.update_self]
        exact ⟨fun dir => by simp at dir, fun dir => absurd dir notDir⟩
      · rw [Function.update_of_ne isTarget]
        by_cases isTmp : id = .of (tmpOf path)
        · rw [isTmp, Function.update_self]
          exact ⟨fun dir => (nomatch dir), fun dir => absurd dir opens.node_ne_dir⟩
        · rw [Function.update_of_ne isTmp]

/-- What lies in a directory is not touched by a write elsewhere. -/
theorem occupied_writeFileAtomic {k : FileId} (content : Bytes) (d : Disk) (outside : (FileId.of path).parent ≠ k)
    (tmpOutside : (FileId.of (tmpOf path)).parent ≠ k) :
    (writeFileAtomic path content d).2.occupied k = d.occupied k := by
  unfold writeFileAtomic
  dsimp only
  by_cases opens : d.Opens (tmpOf path)
  · have withTmp (written : Bytes) : (withTmp path written d).occupied k = d.occupied k :=
      occupied_set tmpOutside _
    rw [write_of_opens opens]
    cases d.fate with
    | refuse => rfl
    | short n => exact (occupied_remove tmpOutside).trans (withTmp _)
    | none =>
        have moves : (d.set (.of (tmpOf path)) (.file content)).tick.rename (tmpOf path) path =
            _ := rename_withTmp opens content
        dsimp only
        by_cases allowed : d.canCreate path = true ∧ d.node (.of path) ≠ some .dir ∧
            (Tools.withTmp path content d).fate = .none
        · rw [moves, if_pos allowed]
          exact (occupied_set outside _).trans ((occupied_unset tmpOutside).trans (withTmp _))
        · rw [moves, if_neg allowed]
          exact (occupied_remove tmpOutside).trans (withTmp _)
  · rw [write_of_not_opens opens]
    rfl

end Atomic

/-! ## The whole write -/

/-- Nothing lies under a name that a write would replace. -/
def Free (d : Disk) (path : Bytes) : Prop := d.Opens path → d.entry path = none

/-- The names beside a target are free as far as a write of the target comes. -/
def CleanNames (target : Bytes) (d : Disk) : Prop :=
  match d.entry target with
  | none =>
      Free d (tmpOf target) ∧
        (d.Opens (tmpOf target) → d.canCreate target = true →
          (0 : UInt8) ∉ target ∧ ¬d.Removable (shadowOf target))
  | some (.file _) =>
      Free d (tmpOf target) ∧ Free d (tmpOf (shadowOf target)) ∧ ¬d.Removable (shadowOf target)
  | some .dir =>
      Free d (tmpOf target) ∧ Free d (tmpOf (shadowOf target)) ∧
        (d.Opens (tmpOf (shadowOf target)) → d.Opens (shadowOf target) →
          d.entry (shadowOf target) = some (.file []))

/-- No read and no removal is refused; creating, writing and renaming may be. -/
def CommitSpares (plan : WritePlan) (d : Disk) : Prop :=
  (plan.exists_ = true → d.fate = .none ∧
    SparesTmp (shadowOf plan.target) ((keepShadow plan d).1.getD [])
      (readWholeFile plan.target d).2) ∧
  SparesTmp plan.target plan.content (keepShadow plan d).2 ∧
  match writeFileAtomic plan.target plan.content (keepShadow plan d).2 with
  | (.ok _, d) => d.fate = .none
  | (.error _, after) =>
      ∀ previous, (keepShadow plan d).1 = some previous →
        SparesTmp plan.target previous after ∧
          (writeFileAtomic plan.target previous after).2.fate = .none

/-- The frame of a write: its target has the content, or nothing has changed. -/
structure FrameKept (target content : Bytes) (d : Disk) (outcome : ToolResult × Disk) : Prop where
  written : outcome.1.status = .ok →
    outcome.2.node = Function.update d.node (.of target) (some (.file content))
  untouched : outcome.1.status ≠ .ok → outcome.2.node = d.node

section Frame

variable {plan : WritePlan} {d : Disk}

theorem Free.update {path : Bytes} (free : Free d path) (opens : d.Opens path) :
    Function.update d.node (.of path) none = d.node := by
  have nothing := free opens
  rw [entry_of_canCreate opens.1] at nothing
  exact Function.update_eq_self_iff.mpr nothing.symm

/-- A failed write without a rollback. -/
theorem frameKept_of_error {target content message : Bytes} {d' : Disk} (same : d'.node = d.node) :
    FrameKept target content d (writeError message, d') :=
  ⟨nofun, fun _ => same⟩

theorem frameKept_of_ok {target content message : Bytes} {d' : Disk}
    (node : d'.node = Function.update d.node (.of target) (some (.file content))) :
    FrameKept target content d (textResult fileWriteId .ok message, d') :=
  ⟨fun _ => node, fun failed => absurd rfl failed⟩

/-- The frame is kept where there was nothing. -/
theorem frameKept_of_new (missing : d.entry plan.target = none) (isNew : plan.exists_ = false)
    (clean : CleanNames plan.target d) (spares : CommitSpares plan d) :
    FrameKept plan.target plan.content d (commitWrite plan d) := by
  obtain ⟨-, sparesWrite, -⟩ := spares
  rw [CleanNames, missing] at clean
  obtain ⟨free, names⟩ := clean
  have kept : keepShadow plan d = (none, d) := by
    rw [keepShadow, if_neg (by simp [isNew])]
  have effect : AtomicEffect plan.target plan.content d _ :=
    atomicEffect (by rw [kept] at sparesWrite; exact sparesWrite)
  have occupants := fun apart : Apart plan.target =>
    occupied_writeFileAtomic plan.content d apart.targetOutside apart.tmpOutside
  unfold commitWrite
  rw [kept]
  dsimp only
  generalize writeFileAtomic plan.target plan.content d = outcome at effect occupants ⊢
  cases effect with
  | nothing same => exact frameKept_of_error same
  | cleaned opens node => exact frameKept_of_error (node.trans (free.update opens))
  | @renamed d' opens creatable notDir node =>
      obtain ⟨noZero, fixed⟩ := names opens creatable
      have apart := apart_of_clean noZero
      rw [free.update opens] at node
      have still : ¬d'.Removable (shadowOf plan.target) := by
        rw [removable_congr _ (occupants apart)]
        · exact fixed
        · rw [node, Function.update_of_ne apart.targetShadow.symm]
      exact frameKept_of_ok ((node_remove_of_not_removable still).trans node)

/-! ### Where there was a file -/

theorem free_congr {d d' : Disk} {path : Bytes} (free : Free d path)
    (dirs : ∀ id, d'.node id = some .dir ↔ d.node id = some .dir)
    (same : d'.node (.of path) = d.node (.of path)) : Free d' path := by
  intro opens
  have entries := entry_congr same
  rw [entries]
  exact free ⟨(canCreate_congr dirs) ▸ opens.1, entries ▸ opens.2⟩

/-- The shadow copy is all that keeping it changes, and only where nothing was. -/
theorem AtomicEffect.shadow {path content : Bytes} {d : Disk}
    {outcome : Except Failure Unit × Disk} (effect : AtomicEffect path content d outcome)
    (free : Free d (tmpOf path)) (fixed : ¬d.Removable path) :
    outcome.2.node = d.node ∨ (d.canCreate path = true ∧ d.node (.of path) = none ∧
      outcome.2.node = Function.update d.node (.of path) (some (.file content))) := by
  cases effect with
  | nothing same => exact .inl same
  | cleaned opens node => exact .inl (node.trans (free.update opens))
  | renamed opens creatable notDir node =>
      rw [free.update opens] at node
      refine .inr ⟨creatable, ?_, node⟩
      have entry := entry_of_canCreate creatable
      cases found : d.node (.of path) with
      | none => rfl
      | some n =>
          cases n with
          | file content => exact absurd (removable_of_file (entry.trans found)) fixed
          | dir => exact absurd found notDir

/-- Writing what is there already changes nothing. -/
theorem AtomicEffect.again {path content : Bytes} {d : Disk}
    {outcome : Except Failure Unit × Disk} (effect : AtomicEffect path content d outcome)
    (free : Free d (tmpOf path)) (there : d.node (.of path) = some (.file content)) :
    outcome.2.node = d.node := by
  cases effect with
  | nothing same => exact same
  | cleaned opens node => exact node.trans (free.update opens)
  | renamed opens creatable notDir node =>
      rw [free.update opens] at node
      exact node.trans (Function.update_eq_self_iff.mpr there.symm)

/-- Removing the shadow takes it away when it was made, and nothing else. -/
theorem node_remove_shadow {path : Bytes} (content : Bytes) {d d' : Disk}
    {nodes : FileId → Option Node} (proper : (FileId.of path).components ≠ []) (fixed : ¬d.Removable path)
    (untouched : nodes (.of path) = d.node (.of path))
    (occupants : d'.occupied (.of path) = d.occupied (.of path))
    (dirs : ∀ id, d'.node id = some .dir ↔ d.node id = some .dir) (steady : d'.fate = .none)
    (state : d'.node = nodes ∨ (d.canCreate path = true ∧ d.node (.of path) = none ∧
      d'.node = Function.update nodes (.of path) (some (.file content)))) :
    (d'.remove path).node = nodes := by
  obtain same | ⟨creatable, nothing, made⟩ := state
  · have still : ¬d'.Removable path := by
      rw [removable_congr _ occupants]
      · exact fixed
      · rw [same, untouched]
    exact (node_remove_of_not_removable still).trans same
  · have found : d'.entry path = some (.file content) := by
      rw [entry_of_canCreate ((canCreate_congr dirs).trans creatable), made, Function.update_self]
    rw [node_remove_of_removable (removable_of_file found) steady proper, made,
      Function.update_idem]
    exact Function.update_eq_self_iff.mpr (untouched.trans nothing).symm

theorem readWholeFile_of_file {path previous : Bytes} (found : d.entry path = some (.file previous))
    (steady : d.fate = .none) : readWholeFile path d = (.ok previous, d.tick) := by
  rw [readWholeFile, Disk.read, found, steady]

/-- The zero byte would make the shadow the target itself. -/
theorem clean_of_fixed {target previous : Bytes} (found : d.entry target = some (.file previous))
    (fixed : ¬d.Removable (shadowOf target)) : (0 : UInt8) ∉ target := by
  intro zero
  refine fixed (@removable_of_file _ _ previous ?_)
  rw [← found, entry, entry, FileId.of, FileId.of, asksDirectory, asksDirectory,
    cString_beside zero]

/-- The tree with the shadow copy, when it could be kept. -/
structure Shadowed (target previous : Bytes) (d d' : Disk) : Prop where
  occupants : d'.occupied (.of (shadowOf target)) = d.occupied (.of (shadowOf target))
  dirs : ∀ id, d'.node id = some .dir ↔ d.node id = some .dir
  state : d'.node = d.node ∨ (d.canCreate (shadowOf target) = true ∧
    d.node (.of (shadowOf target)) = none ∧
    d'.node = Function.update d.node (.of (shadowOf target)) (some (.file previous)))

section Shadow

variable {target previous : Bytes} {shadow d' : Disk}

theorem Shadowed.node_ne (shadowed : Shadowed target previous d shadow) {id : FileId}
    (other : id ≠ .of (shadowOf target)) : shadow.node id = d.node id := by
  obtain same | ⟨-, -, made⟩ := shadowed.state
  · rw [same]
  · rw [made, Function.update_of_ne other]

/-- Writing the previous content back and removing the shadow undoes everything. -/
theorem Shadowed.node_rollback (shadowed : Shadowed target previous d shadow)
    (apart : Apart target) (fixed : ¬d.Removable (shadowOf target))
    (found : d.entry target = some (.file previous)) (free : Free shadow (tmpOf target))
    (same : d'.node = shadow.node)
    (occupants : d'.occupied (.of (shadowOf target)) = shadow.occupied (.of (shadowOf target)))
    (spares : SparesTmp target previous d')
    (steady : (writeFileAtomic target previous d').2.fate = .none) :
    ((writeFileAtomic target previous d').2.remove (shadowOf target)).node = d.node := by
  have effect := atomicEffect spares
  have again := occupied_writeFileAtomic previous d' apart.targetOutside apart.tmpOutside
  have there : d'.node (.of target) = some (.file previous) := by
    rw [same, shadowed.node_ne apart.targetShadow]
    exact (d.node_of_entry found).2
  have dirs : ∀ id, d'.node id = some .dir ↔ shadow.node id = some .dir := fun id => by rw [same]
  have unchanged := effect.again (free_congr free dirs (congrFun same _)) there
  refine node_remove_shadow previous apart.shadowProper fixed rfl
    (again.trans (occupants.trans shadowed.occupants))
    (fun id => (effect.dirs id).trans ((dirs id).trans (shadowed.dirs id))) steady ?_
  rw [unchanged, same]
  exact shadowed.state

end Shadow

/-- The frame is kept where there was a file. -/
theorem frameKept_of_file {previous : Bytes} (found : d.entry plan.target = some (.file previous))
    (old : plan.exists_ = true) (clean : CleanNames plan.target d) (spares : CommitSpares plan d) :
    FrameKept plan.target plan.content d (commitWrite plan d) := by
  obtain ⟨sparesShadow, sparesWrite, sparesRollback⟩ := spares
  obtain ⟨steady, sparesShadow⟩ := sparesShadow old
  rw [CleanNames, found] at clean
  obtain ⟨freeTmp, freeShadowTmp, fixed⟩ := clean
  have apart := apart_of_clean (clean_of_fixed found fixed)
  have whole := readWholeFile_of_file found steady
  have kept : keepShadow plan d =
      (some previous, (writeFileAtomic (shadowOf plan.target) previous d.tick).2) := by
    rw [keepShadow, if_pos old, whole]
  rw [kept, whole] at sparesShadow
  rw [kept] at sparesWrite sparesRollback
  have shadowEffect : AtomicEffect (shadowOf plan.target) previous d.tick _ :=
    atomicEffect sparesShadow
  have shadowOccupants : _ = d.occupied (.of (shadowOf plan.target)) :=
    occupied_writeFileAtomic previous d.tick apart.shadowOutside apart.shadowTmpOutside
  unfold commitWrite
  rw [kept]
  dsimp only at sparesWrite sparesRollback ⊢
  generalize writeFileAtomic (shadowOf plan.target) previous d.tick = shadow at *
  have shadowed : Shadowed plan.target previous d shadow.2 :=
    ⟨shadowOccupants, shadowEffect.dirs, shadowEffect.shadow freeShadowTmp fixed⟩
  have freeHere : Free shadow.2 (tmpOf plan.target) :=
    free_congr freeTmp shadowed.dirs (shadowed.node_ne apart.tmpShadow)
  have effect : AtomicEffect plan.target plan.content shadow.2 _ := atomicEffect sparesWrite
  have occupants := occupied_writeFileAtomic plan.content shadow.2 apart.targetOutside
    apart.tmpOutside
  generalize writeFileAtomic plan.target plan.content shadow.2 = outcome at *
  have dirs := effect.dirs
  cases effect with
  | nothing same =>
      obtain ⟨sparesTmp, last⟩ := sparesRollback previous rfl
      exact frameKept_of_error (shadowed.node_rollback apart fixed found freeHere same occupants
        sparesTmp last)
  | cleaned opens node =>
      obtain ⟨sparesTmp, last⟩ := sparesRollback previous rfl
      exact frameKept_of_error (shadowed.node_rollback apart fixed found freeHere
        (node.trans (freeHere.update opens)) occupants sparesTmp last)
  | renamed opens creatable notDir node =>
      rw [freeHere.update opens] at node
      refine frameKept_of_ok (node_remove_shadow previous apart.shadowProper fixed ?_
        (occupants.trans shadowed.occupants) (fun id => (dirs id).trans (shadowed.dirs id))
        sparesRollback ?_)
      · exact Function.update_of_ne apart.targetShadow.symm _ _
      · rw [node]
        obtain same | ⟨create, nothing, made⟩ := shadowed.state
        · exact .inl (by rw [same])
        · refine .inr ⟨create, nothing, ?_⟩
          rw [made, Function.update_comm apart.targetShadow.symm]

/-! ### Where there was a directory -/

theorem readWholeFile_of_dir {path : Bytes} (found : d.entry path = some .dir) :
    ∃ failure, readWholeFile path d = (.error failure, d.tick) := by
  rw [readWholeFile, Disk.read, found]
  cases d.fate <;> exact ⟨_, rfl⟩

/-- The frame is kept where there was a directory: the write fails. -/
theorem frameKept_of_dir (found : d.entry plan.target = some .dir) (old : plan.exists_ = true)
    (clean : CleanNames plan.target d) (spares : CommitSpares plan d) :
    FrameKept plan.target plan.content d (commitWrite plan d) := by
  obtain ⟨sparesShadow, sparesWrite, -⟩ := spares
  obtain ⟨-, sparesShadow⟩ := sparesShadow old
  rw [CleanNames, found] at clean
  obtain ⟨freeTmp, freeShadowTmp, taken⟩ := clean
  obtain ⟨failure, unread⟩ := readWholeFile_of_dir found
  have kept : keepShadow plan d =
      (none, (writeFileAtomic (shadowOf plan.target) [] d.tick).2) := by
    rw [keepShadow, if_pos old, unread]
  rw [kept, unread] at sparesShadow
  rw [kept] at sparesWrite
  have shadowEffect : AtomicEffect (shadowOf plan.target) [] d.tick _ := atomicEffect sparesShadow
  unfold commitWrite
  rw [kept]
  dsimp only at sparesWrite ⊢
  generalize writeFileAtomic (shadowOf plan.target) [] d.tick = shadow at *
  have same : shadow.2.node = d.node := by
    cases shadowEffect with
    | nothing same => exact same
    | cleaned opens node => exact node.trans (freeShadowTmp.update opens)
    | renamed opens creatable notDir node =>
        have entry := entry_of_canCreate (d := d) creatable
        have there := taken opens ⟨creatable, entry ▸ notDir⟩
        rw [entry] at there
        rw [node]
        refine Eq.trans ?_ (Function.update_eq_self_iff.mpr there.symm)
        exact congrArg (Function.update · _ _) (freeShadowTmp.update opens)
  have dirs : ∀ id, shadow.2.node id = some .dir ↔ d.node id = some .dir :=
    fun id => by rw [same]
  have freeHere := free_congr freeTmp dirs (congrFun same _)
  have effect : AtomicEffect plan.target plan.content shadow.2 _ := atomicEffect sparesWrite
  generalize writeFileAtomic plan.target plan.content shadow.2 = outcome at *
  cases effect with
  | nothing still => exact frameKept_of_error (still.trans same)
  | cleaned opens node => exact frameKept_of_error (node.trans ((freeHere.update opens).trans same))
  | renamed opens creatable notDir node =>
      have entry := entry_of_canCreate creatable
      rw [entry_congr (congrFun same _), found] at entry
      exact absurd entry.symm notDir

end Frame

end Opencodepp.Tools
