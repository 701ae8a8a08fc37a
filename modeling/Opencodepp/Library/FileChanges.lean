import Mathlib.Logic.Function.Basic
import Opencodepp.Library.FileSystem

/-!
# What a call changes

Each call of the file system changes the nodes of at most one name, or of two when it renames.
The lemmas say which, as an update of the function from names to nodes, and what a call needs of
the tree to get through.  Directories are neither made nor replaced by a write, and what lies in a
directory does not change by what happens elsewhere.
-/

set_option autoImplicit false

namespace Opencodepp.Library.Disk

variable {d d' : Disk}

/-! ## Nodes as a function -/

theorem node_set {id : FileId} (proper : id.components ≠ []) (n : Node) :
    (d.set id n).node = Function.update d.node id (some n) := by
  funext other
  by_cases same : other = id
  · rw [same, Function.update_self, d.node_set_self proper]
  · rw [Function.update_of_ne same]
    simp only [node, set, List.lookup_cons, beq_false_of_ne same]
    rw [lookup_filter_ne same]

theorem node_unset {id : FileId} (proper : id.components ≠ []) :
    (d.unset id).node = Function.update d.node id none := by
  funext other
  by_cases same : other = id
  · rw [same, Function.update_self, node, if_neg proper]
    refine List.lookup_eq_none_iff.mpr fun entry member => ?_
    have kept : entry.1 ≠ id := of_decide_eq_true (List.mem_filter.mp member).2
    simpa using fun same : id = entry.1 => kept same.symm
  · rw [Function.update_of_ne same, d.node_unset_other same]

theorem occupied_unset {id k : FileId} (apart : id.parent ≠ k) :
    (d.unset id).occupied k = d.occupied k := by
  simp only [occupied, unset, List.any_filter]
  congr 1
  funext entry
  by_cases same : entry.1 = id
  · simp [same, apart]
  · simp [same]

theorem occupied_set {id k : FileId} (apart : id.parent ≠ k) (n : Node) :
    (d.set id n).occupied k = d.occupied k := by
  rw [← d.occupied_unset apart]
  simp [occupied, set, unset, apart]

/-! ## What a call asks of the tree -/

theorem entry_congr {path : Bytes} (same : d'.node (.of path) = d.node (.of path)) :
    d'.entry path = d.entry path := by
  rw [entry, entry, same]

theorem canCreate_congr {path : Bytes}
    (dirs : ∀ id, d'.node id = some .dir ↔ d.node id = some .dir) :
    d'.canCreate path = d.canCreate path := by
  simp only [canCreate, dirs]

/-- Where a file can be created, the name refers to what is there. -/
theorem entry_of_canCreate {path : Bytes} (creatable : d.canCreate path = true) :
    d.entry path = d.node (.of path) := by
  simp only [canCreate, Bool.and_eq_true, decide_eq_true_eq, Bool.not_eq_true'] at creatable
  obtain ⟨⟨named, plain⟩, -⟩ := creatable
  rw [entry, if_neg named]
  split
  · next found => rw [plain, if_neg Bool.false_ne_true, found]
  · rfl

/-- A file can be opened for writing under the path. -/
def Opens (d : Disk) (path : Bytes) : Prop := d.canCreate path = true ∧ d.entry path ≠ some .dir

theorem Opens.proper {path : Bytes} (opens : d.Opens path) : (FileId.of path).components ≠ [] :=
  d.components_of_canCreate opens.1 opens.2

theorem Opens.node_ne_dir {path : Bytes} (opens : d.Opens path) :
    d.node (.of path) ≠ some .dir := by
  rw [← entry_of_canCreate opens.1]
  exact opens.2

theorem write_of_not_opens {path : Bytes} (closed : ¬d.Opens path) (content : Bytes) :
    d.write path content = (.unopened, d.tick) := by
  rw [write, if_neg]
  simpa [Opens] using closed

theorem write_of_opens {path : Bytes} (opens : d.Opens path) (content : Bytes) :
    d.write path content =
      match d.fate with
      | .refuse => (.unopened, d.tick)
      | .short n => (.failed, (d.set (.of path) (.file (content.take n))).tick)
      | .none => (.complete, (d.set (.of path) (.file content)).tick) := by
  have allowed : (d.canCreate path && d.entry path ≠ some .dir) = true := by
    simpa [Opens] using opens
  exact if_pos allowed

/-! ## Removals -/

/-- A removal takes effect: there is a file, or a directory with nothing in it. -/
def Removable (d : Disk) (path : Bytes) : Prop :=
  match d.entry path with
  | none => False
  | some (.file _) => True
  | some .dir => d.occupied (.of path) = false

theorem removable_congr {path : Bytes} (same : d'.node (.of path) = d.node (.of path))
    (occupants : d'.occupied (.of path) = d.occupied (.of path)) :
    d'.Removable path ↔ d.Removable path := by
  rw [Removable, Removable, entry_congr same, occupants]

theorem removable_of_file {path content : Bytes} (found : d.entry path = some (.file content)) :
    d.Removable path := by
  rw [Removable, found]
  trivial

theorem node_remove_of_removable {path : Bytes} (removable : d.Removable path)
    (steady : d.fate = .none) (proper : (FileId.of path).components ≠ []) :
    (d.remove path).node = Function.update d.node (.of path) none := by
  rw [← node_unset proper]
  unfold Removable at removable
  unfold remove
  cases found : d.entry path with
  | none => simp [found] at removable
  | some n =>
      cases n with
      | file content => simp only [steady, if_true]; rfl
      | dir =>
          rw [found] at removable
          have empty : d.occupied (.of path) = false := removable
          simp only [steady, empty, decide_true, Bool.not_false, Bool.and_self, if_true]
          rfl

theorem node_remove_of_not_removable {path : Bytes} (kept : ¬d.Removable path) :
    (d.remove path).node = d.node := by
  unfold Removable at kept
  unfold remove
  cases found : d.entry path with
  | none => rfl
  | some n =>
      cases n with
      | file content => simp [found] at kept
      | dir =>
          rw [found] at kept
          have full : d.occupied (.of path) = true := by simpa using kept
          simp only [full, Bool.not_true, Bool.and_false, Bool.false_eq_true, if_false]
          rfl

theorem occupied_remove {path : Bytes} {k : FileId} (apart : (FileId.of path).parent ≠ k) :
    (d.remove path).occupied k = d.occupied k := by
  unfold remove
  split
  · split
    · exact d.occupied_unset apart
    · rfl
  · split
    · exact d.occupied_unset apart
    · rfl
  · rfl

theorem fault_remove (path : Bytes) : (d.remove path).fault = d.fault := by
  unfold remove
  split
  · split <;> rfl
  · split <;> rfl
  · rfl

/-! ## What a call leaves alone -/

/-- Apart from the named files the two trees are the same. -/
def SameBut (named : List FileId) (d d' : Disk) : Prop := ∀ id, id ∉ named → d'.node id = d.node id

namespace SameBut

variable {named more : List FileId} {d'' : Disk}

theorem of_node (same : d'.node = d.node) : SameBut named d d' := fun id _ => congrFun same id

theorem trans (first : SameBut named d d') (second : SameBut named d' d'') :
    SameBut named d d'' :=
  fun id other => (second id other).trans (first id other)

theorem mono (same : SameBut named d d') (wider : named ⊆ more) : SameBut more d d' :=
  fun id other => same id fun member => other (wider member)

end SameBut

theorem sameBut_set (id : FileId) (n : Node) : SameBut [id] d (d.set id n) := by
  intro other different
  have apart : other ≠ id := fun same => different (same ▸ List.mem_singleton_self id)
  simp only [node, set, List.lookup_cons, beq_false_of_ne apart]
  rw [lookup_filter_ne apart]

theorem sameBut_unset (id : FileId) : SameBut [id] d (d.unset id) :=
  fun _ different => d.node_unset_other fun same => different (same ▸ List.mem_singleton_self id)

theorem sameBut_write (path content : Bytes) : SameBut [.of path] d (d.write path content).2 := by
  unfold write
  split
  · split
    · exact .of_node rfl
    · exact sameBut_set _ _
    · exact sameBut_set _ _
  · exact .of_node rfl

theorem sameBut_rename (source target : Bytes) :
    SameBut [.of source, .of target] d (d.rename source target).2 := by
  have source_ : [FileId.of source] ⊆ [.of source, .of target] := by simp
  have target_ : [FileId.of target] ⊆ [.of source, .of target] := by simp
  unfold rename
  split
  · split
    · exact ((sameBut_unset _).mono source_).trans ((sameBut_set _ _).mono target_)
    · exact .of_node rfl
  · exact .of_node rfl

theorem sameBut_remove (path : Bytes) : SameBut [.of path] d (d.remove path) :=
  fun _ different => d.node_remove_other fun same => different (same ▸ List.mem_singleton_self _)

end Opencodepp.Library.Disk
