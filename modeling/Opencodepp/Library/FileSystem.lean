import Opencodepp.Library.ByteString

/-!
# A file system with faults

A tree of files and directories under the POSIX calls the program makes: opening
a file for reading or writing, writing, renaming, removing and asking for a path's
existence.  A path is looked up as the C string it is passed as, by its components;
empty components and `.` name nothing.  Every call may be refused and every write
may stop short, as the fault schedule says.

Links are not modelled, so two names are one file when their components agree, and
`..` is a component like any other.
-/

set_option autoImplicit false

namespace Opencodepp.Library

/-- A file named by its components, from the root or from the working directory. -/
structure FileId where
  absolute : Bool
  components : List Bytes
  deriving Repr, DecidableEq

namespace FileId

/-- The components of a path. -/
def componentsOf (path : Bytes) : List Bytes := (tokens slash path).filter (· ≠ [0x2e])

/-- The file a path names. -/
def of (path : Bytes) : FileId :=
  ⟨(cString path).head? = some slash, componentsOf (cString path)⟩

/-- The directory a file lies in. -/
def parent (id : FileId) : FileId := ⟨id.absolute, id.components.dropLast⟩

end FileId

/-- What a name refers to. -/
inductive Node
  | file (content : Bytes)
  | dir
  deriving Repr, DecidableEq

/-- The fate of one call. -/
inductive Fault
  | none
  | refuse
  | short (written : Nat)
  deriving Repr, DecidableEq

/-- The tree, the fault schedule, and the number of calls made. -/
structure Disk where
  nodes : List (FileId × Node)
  fault : Nat → Fault
  calls : Nat

namespace Disk

variable (d : Disk)

/-- The node with the given identity; the root and the working directory exist. -/
def node (id : FileId) : Option Node :=
  if id.components = [] then some .dir else d.nodes.lookup id

/-- Replace a node. -/
def set (id : FileId) (n : Node) : Disk :=
  { d with nodes := (id, n) :: d.nodes.filter (·.1 ≠ id) }

/-- Delete a node. -/
def unset (id : FileId) : Disk := { d with nodes := d.nodes.filter (·.1 ≠ id) }

/-- The fate of the next call. -/
def fate : Fault := d.fault d.calls

def tick : Disk := { d with calls := d.calls + 1 }

/-- Whether a path can only name a directory: it ends in a slash or in `.`. -/
def asksDirectory (path : Bytes) : Bool :=
  let last := ((cString path).splitOn slash).getLastD []
  last = [] || last = [0x2e]

/-- What a path refers to. -/
def entry (path : Bytes) : Option Node :=
  if cString path = [] then none
  else
    match d.node (.of path) with
    | some (.file content) => if asksDirectory path then none else some (.file content)
    | other => other

/-- Whether a file can be created under a path. -/
def canCreate (path : Bytes) : Bool :=
  cString path ≠ [] && !asksDirectory path && d.node (FileId.of path).parent = some .dir

/-- Whether a path exists. -/
def stat (path : Bytes) : Bool × Disk :=
  ((d.entry path).isSome && d.fate = .none, d.tick)

/-- The outcome of reading a file to its end. -/
inductive ReadOutcome
  | unopened
  | failed (got : Bytes)
  | complete (content : Bytes)
  deriving Repr, DecidableEq

/-- Open a file and read it to its end.  A directory opens and then fails to read. -/
def read (path : Bytes) : ReadOutcome × Disk :=
  let outcome : ReadOutcome :=
    match d.entry path, d.fate with
    | none, _ => .unopened
    | some _, .refuse => .unopened
    | some .dir, _ => .failed []
    | some (.file content), .short n => .failed (content.take n)
    | some (.file content), .none => .complete content
  (outcome, d.tick)

/-- The outcome of writing a file from its start. -/
inductive WriteOutcome
  | unopened
  | failed
  | complete
  deriving Repr, DecidableEq

/-- Open a file for writing, which truncates it, and write the content. -/
def write (path content : Bytes) : WriteOutcome × Disk :=
  if d.canCreate path && d.entry path ≠ some .dir then
    match d.fate with
    | .refuse => (.unopened, d.tick)
    | .short n => (.failed, (d.set (.of path) (.file (content.take n))).tick)
    | .none => (.complete, (d.set (.of path) (.file content)).tick)
  else (.unopened, d.tick)

/-- Rename a file over another name.  Directories are not renamed here. -/
def rename (source target : Bytes) : Bool × Disk :=
  match d.entry source with
  | some (.file content) =>
      if d.canCreate target && d.entry target ≠ some .dir && d.fate = .none then
        (true, ((d.unset (.of source)).set (.of target) (.file content)).tick)
      else (false, d.tick)
  | _ => (false, d.tick)

/-- Whether a directory has something in it. -/
def occupied (id : FileId) : Bool := d.nodes.any fun entry => entry.1.parent = id

/-- Remove a file or an empty directory. -/
def remove (path : Bytes) : Disk :=
  match d.entry path with
  | some (.file _) => if d.fate = .none then (d.unset (.of path)).tick else d.tick
  | some .dir =>
      if d.fate = .none && !d.occupied (.of path) then (d.unset (.of path)).tick else d.tick
  | none => d.tick

/-! ## Nodes after an update -/

theorem lookup_filter_ne {key other : FileId} (different : key ≠ other) :
    ∀ entries : List (FileId × Node),
      (entries.filter (·.1 ≠ other)).lookup key = entries.lookup key := by
  intro entries
  induction entries with
  | nil => rfl
  | cons entry rest inductionHypothesis =>
      obtain ⟨k, v⟩ := entry
      rw [List.filter_cons, List.lookup_cons]
      by_cases isKey : key = k
      · have kept : k ≠ other := isKey ▸ different
        simp [kept, isKey]
      · have skipped : (key == k) = false := by simp [isKey]
        rw [skipped, ← inductionHypothesis]
        split
        · rw [List.lookup_cons, skipped]
        · rfl

@[simp] theorem node_tick (id : FileId) : d.tick.node id = d.node id := rfl

theorem node_set_self {id : FileId} (proper : id.components ≠ []) (n : Node) :
    (d.set id n).node id = some n := by
  simp [node, set, proper]

theorem node_unset_other {id other : FileId} (different : id ≠ other) :
    (d.unset other).node id = d.node id := by
  simp only [node, unset]
  rw [lookup_filter_ne different]

/-! ## What a call has done when it succeeded -/

theorem node_of_entry {path content : Bytes} (found : d.entry path = some (.file content)) :
    (FileId.of path).components ≠ [] ∧ d.node (.of path) = some (.file content) := by
  unfold entry at found
  split at found
  · cases found
  · split at found
    · next other =>
        split at found
        · cases found
        · cases found
          refine ⟨fun empty => ?_, other⟩
          simp [node, empty] at other
    · next notFile => exact absurd found (notFile content)

/-- A path under which a file can be put names neither the root nor the working directory. -/
theorem components_of_canCreate {path : Bytes} (creatable : d.canCreate path = true)
    (notDir : d.entry path ≠ some .dir) : (FileId.of path).components ≠ [] := by
  intro empty
  have named : cString path ≠ [] := by
    simp only [canCreate, Bool.and_eq_true, decide_eq_true_eq] at creatable
    exact creatable.1.1
  refine notDir ?_
  simp [entry, named, node, empty]

theorem node_write_complete {path content : Bytes} {d' : Disk}
    (wrote : d.write path content = (.complete, d')) :
    d'.node (.of path) = some (.file content) := by
  unfold write at wrote
  split at wrote
  · next allowed =>
      simp only [Bool.and_eq_true, decide_eq_true_eq] at allowed
      have proper := d.components_of_canCreate allowed.1 allowed.2
      split at wrote
      · cases wrote
      · cases wrote
      · cases wrote
        exact node_set_self d proper _
  · cases wrote

theorem node_rename {source target : Bytes} {d' : Disk}
    (renamed : d.rename source target = (true, d')) :
    asksDirectory target = false ∧
      ∃ content, d.node (.of source) = some (.file content) ∧
        d'.node (.of target) = some (.file content) := by
  unfold rename at renamed
  split at renamed
  · next content found =>
      split at renamed
      · next allowed =>
          simp only [Bool.and_eq_true, decide_eq_true_eq] at allowed
          have proper := d.components_of_canCreate allowed.1.1 allowed.1.2
          cases renamed
          refine ⟨?_, content, (d.node_of_entry found).2, node_set_self _ proper _⟩
          have creatable := allowed.1.1
          simp only [canCreate, Bool.and_eq_true, Bool.not_eq_true'] at creatable
          exact creatable.1.2
      · cases renamed
  · cases renamed

theorem node_remove_other {path : Bytes} {id : FileId} (different : id ≠ .of path) :
    (d.remove path).node id = d.node id := by
  unfold remove
  split
  · split
    · exact d.node_unset_other different
    · rfl
  · split
    · exact d.node_unset_other different
    · rfl
  · rfl

end Disk

end Opencodepp.Library
