import Opencodepp.Graph.Endpoints

/-!
# The two directions of the call graph

Callees are names, callers are resolved ids.  A call is resolved when its file is parsed,
among the symbols of that file, to the first one of the name; nothing resolves it later.  So
a caller is found from the called symbol only when the call stands in the file of the symbol,
and only when the symbol is the first of its name there.
-/

set_option autoImplicit false

namespace Opencodepp.Graph

open Opencodepp.Library
open Opencodepp.Library.Ranges

variable {idx : SymbolIndex} {sources : Bytes → Option Bytes}

/-- The two directions agree on a caller and a called symbol, and the context of a change to
the file of the symbol considers the caller. -/
structure Agree (idx : SymbolIndex) (c s : Sym) : Prop where
  inverse : c.id ∈ idx.callersOf s.id ↔ s.name ∈ idx.callees c.id
  considered : s.name ∈ idx.callees c.id → ∀ read, (idx.walk read [s.file]).budget ≠ 0 →
    c.id ∈ (idx.walk read [s.file]).seen

/-- A symbol is the first of its name in its file. -/
def FirstOfName (idx : SymbolIndex) (s : Sym) : Prop :=
  ∀ t ∈ idx.syms, t.id ≠ 0 → t.file = s.file → t.name = s.name → s.id ≤ t.id

/-- If a symbol is called at all, then from its own file, and it is the first of its name
there. -/
def CalledAtHome (idx : SymbolIndex) (c s : Sym) : Prop :=
  s.name ∈ idx.callees c.id →
    FirstOfName idx s ∧ ∃ d ∈ idx.deps, d.fromFile = s.file ∧ d.kind = .call ∧
      d.fromSym = c.id ∧ d.toName = s.name

instance (idx : SymbolIndex) (c s : Sym) : Decidable (CalledAtHome idx c s) :=
  inferInstanceAs (Decidable (_ → (∀ t ∈ idx.syms, _ → _ → _ → _) ∧ ∃ d ∈ idx.deps, _))

/-- Ids grow along the array. -/
theorem pairwise_own (sound : Sound idx) (file : Bytes) :
    (own symOwner file idx.syms).Pairwise (·.id < ·.id) := by
  have all : idx.syms.Pairwise fun s t => s.id ≠ 0 → t.id ≠ 0 → s.id < t.id := by
    rw [List.pairwise_iff_getElem]
    intro i j short short' before live live'
    have first := sound.placed i _ (List.getElem?_eq_getElem short) live
    have second := sound.placed j _ (List.getElem?_eq_getElem short') live'
    omega
  refine (all.filter _).imp_of_mem fun {s t} here there less => ?_
  exact less (symOwner_eq_some.mp (mem_own.mp here).2).1 (symOwner_eq_some.mp (mem_own.mp there).2).1

/-- What a search finds in a list that grows is the least. -/
theorem le_of_find? {syms : List Sym} (grows : syms.Pairwise (·.id < ·.id)) {name : Bytes}
    {first t : Sym} (found : syms.find? (·.name = name) = some first) (member : t ∈ syms)
    (named : t.name = name) : first.id ≤ t.id := by
  induction syms with
  | nil => cases member
  | cons s rest ih =>
      rw [List.pairwise_cons] at grows
      by_cases here : s.name = name
      · obtain rfl : s = first := by simpa [List.find?_cons, here] using found
        obtain rfl | later := List.mem_cons.mp member
        · exact Nat.le_refl _
        · exact Nat.le_of_lt (grows.1 t later)
      · rw [List.find?_cons_of_neg (by simpa using here)] at found
        obtain rfl | later := List.mem_cons.mp member
        · exact absurd named here
        · exact ih grows.2 found later

theorem mem_own_of_symById {s : Sym} (known : idx.symById s.id = some s) :
    s.id ≠ 0 ∧ s ∈ own symOwner s.file idx.syms := by
  unfold SymbolIndex.symById at known
  split at known
  · cases known
  · rename_i live
    obtain ⟨found, _⟩ := Option.filter_eq_some_iff.mp known
    exact ⟨live, mem_own.mpr ⟨List.mem_of_getElem? found, symOwner_eq_some.mpr ⟨live, rfl⟩⟩⟩

/-- A name is resolved to a symbol of a file exactly when the symbol is the first one. -/
theorem nameToId_eq_iff (sound : Sound idx) {s : Sym} (known : idx.symById s.id = some s) :
    nameToId (own symOwner s.file idx.syms) s.name = some s.id ↔ FirstOfName idx s := by
  obtain ⟨live, mine⟩ := mem_own_of_symById known
  have grows := pairwise_own sound s.file
  unfold nameToId
  cases search : (own symOwner s.file idx.syms).find? (·.name = s.name) with
  | none => simpa using List.find?_eq_none.mp search s mine
  | some first =>
      have name : first.name = s.name := by simpa using List.find?_some search
      obtain ⟨there, owns⟩ := mem_own.mp (List.mem_of_find?_eq_some search)
      obtain ⟨alive, home⟩ := symOwner_eq_some.mp owns
      simp only [Option.map_some, Option.some.injEq]
      constructor
      · intro same t member liveT homeT nameT
        have own : t ∈ own symOwner s.file idx.syms :=
          mem_own.mpr ⟨member, symOwner_eq_some.mpr ⟨liveT, homeT⟩⟩
        exact same ▸ le_of_find? grows search own nameT
      · intro least
        exact Nat.le_antisymm (le_of_find? grows search mine rfl) (least first there alive home name)

/-- A live symbol lies in the range of its file. -/
theorem range_of_own (sound : Sound idx) {s : Sym} (mine : s ∈ own symOwner s.file idx.syms) :
    ∃ pf i, idx.files.lookup s.file = some pf ∧ pf.symRange.Has i ∧ idx.syms[i]? = some s := by
  obtain ⟨member, owns⟩ := mem_own.mp mine
  obtain ⟨i, found⟩ := List.mem_iff_getElem?.mp member
  obtain ⟨r, range, inside⟩ := (sound.symsOwned i s.file).mp (by simp [found, owns])
  obtain ⟨pf, known, rfl⟩ := Option.map_eq_some_iff.mp range
  exact ⟨pf, i, known, inside, found⟩

theorem file_ne_nil (sound : Sound idx) (linked : Linked idx sources) {s : Sym}
    (mine : s ∈ own symOwner s.file idx.syms) : s.file ≠ [] := by
  obtain ⟨pf, _, known, _⟩ := range_of_own sound mine
  obtain ⟨_, _, _, _, _, imprint⟩ :=
    linked s.file (AList.lookup_isSome.mp (Option.isSome_of_eq_some known))
  exact ne_nil_of_found imprint.found

section Pair

variable {c s : Sym} (sound : Sound idx) (linked : Linked idx sources)
  (known : idx.symById s.id = some s)

include sound linked known

/-- A caller that is found calls the name. -/
theorem callees_of_callersOf (calls : c.id ∈ idx.callersOf s.id) : s.name ∈ idx.callees c.id := by
  obtain ⟨_, d, member, live, kind, source, target⟩ := mem_callersOf.mp calls
  obtain ⟨t, resolved, _, name⟩ :=
    linked.target sound member live (target ▸ (mem_own_of_symById known).1)
  rw [target, known] at resolved
  obtain rfl := Option.some.inj resolved
  exact mem_callees.mpr ⟨d, member, live, kind, source, name.symm⟩

/-- A call of the name from the file of its first symbol is found. -/
theorem callersOf_of_calledAtHome (caller : c.id ≠ 0) (home : CalledAtHome idx c s)
    (calls : s.name ∈ idx.callees c.id) : c.id ∈ idx.callersOf s.id := by
  obtain ⟨live, mine⟩ := mem_own_of_symById known
  obtain ⟨first, d, member, same, kind, source, name⟩ := home calls
  have named : d.fromFile ≠ [] := same ▸ file_ne_nil sound linked mine
  have target := linked.toSym_eq sound member named
  rw [same, name, (nameToId_eq_iff sound known).mpr first, Option.getD_some] at target
  exact mem_callersOf.mpr ⟨caller, d, member, named, kind, source, target⟩

/-- A caller that is found calls from the file of the symbol, which is the first of its name. -/
theorem calledAtHome_of_callersOf (calls : c.id ∈ idx.callersOf s.id) :
    FirstOfName idx s ∧ ∃ d ∈ idx.deps, d.fromFile = s.file ∧ d.kind = .call ∧
      d.fromSym = c.id ∧ d.toName = s.name := by
  obtain ⟨live, mine⟩ := mem_own_of_symById known
  obtain ⟨_, d, member, named, kind, source, target⟩ := mem_callersOf.mp calls
  obtain ⟨t, resolved, file, name⟩ := linked.target sound member named (target ▸ live)
  rw [target, known] at resolved
  obtain rfl := Option.some.inj resolved
  have first := linked.toSym_eq sound member named
  rw [target, ← file, ← name] at first
  refine ⟨(nameToId_eq_iff sound known).mp ?_, d, member, file.symm, kind, source, name.symm⟩
  cases search : nameToId (own symOwner s.file idx.syms) s.name with
  | none => simp [search, live] at first
  | some id => simp [search] at first ⊢; exact first.symm

theorem agree_iff_calledAtHome (caller : c.id ≠ 0) : Agree idx c s ↔ CalledAtHome idx c s := by
  constructor
  · intro agree calls
    exact calledAtHome_of_callersOf sound linked known (agree.inverse.mpr calls)
  · intro home
    have back := callersOf_of_calledAtHome sound linked known caller home
    refine ⟨⟨callees_of_callersOf sound linked known, back⟩, fun calls read left => ?_⟩
    obtain ⟨live, mine⟩ := mem_own_of_symById known
    obtain ⟨pf, i, indexed, inside, found⟩ := range_of_own sound mine
    exact SymbolIndex.seen_of_callersOf indexed inside found live rfl (back calls) left

end Pair

/-- **When the two directions agree.**  For every index that a run has built and all live
symbols of it where the name of the one resolves to it from the file of the other. -/
theorem agree_iff {limits : IndexLimits} {ops : List Op} (ran : indexRun limits ops = some idx)
    {c s : Sym} (caller : idx.symById c.id = some c) (called : idx.symById s.id = some s) :
    (idx.lookup s.name c.file = some s → Agree idx c s) ↔
      (idx.lookup s.name c.file = some s → CalledAtHome idx c s) := by
  obtain ⟨sources, settled⟩ := settled_run ran
  exact imp_congr_right fun _ =>
    agree_iff_calledAtHome settled.sound settled.linked called (mem_own_of_symById caller).1

/-- Two symbols of an index, by their ids. -/
theorem exists_pair (limits : IndexLimits) (ops : List Op) (caller called : Nat)
    (check : SymbolIndex → Sym → Sym → Bool)
    (seen : ((indexRun limits ops).any fun idx => (idx.symById caller).any fun c =>
      (idx.symById called).any fun s => check idx c s) = true) :
    ∃ idx c s, indexRun limits ops = some idx ∧ idx.symById c.id = some c ∧
      idx.symById s.id = some s ∧ check idx c s = true := by
  obtain ⟨idx, ran, seen⟩ := (Option.any_eq_true _ _).mp seen
  obtain ⟨c, foundC, seen⟩ := (Option.any_eq_true _ _).mp seen
  obtain ⟨s, foundS, holds⟩ := (Option.any_eq_true _ _).mp seen
  have id : ∀ {n : Nat} {t : Sym}, idx.symById n = some t → t.id = n := by
    intro n t found
    unfold SymbolIndex.symById at found
    split at found
    · cases found
    · simpa using (Option.filter_eq_some_iff.mp found).2
  exact ⟨idx, c, s, ran, id foundC ▸ foundC, id foundS ▸ foundS, holds⟩

/-- A call within a file. -/
def callWithin : List Op :=
  [.ensureIndexed (str "a.c") (some ⟨str "int f() { }\nint g() { f(); }", 1, 27⟩)]

theorem agree_iff_within : ∃ idx c s, indexRun {} callWithin = some idx ∧
    s.name ∈ idx.callees c.id ∧ (idx.lookup s.name c.file = some s → Agree idx c s) := by
  obtain ⟨idx, c, s, ran, caller, called, holds⟩ := exists_pair {} callWithin 2 1
    (fun idx c s => s.name ∈ idx.callees c.id && CalledAtHome idx c s) (by decide +kernel)
  simp only [Bool.and_eq_true, decide_eq_true_eq] at holds
  exact ⟨idx, c, s, ran, holds.1, (agree_iff ran caller called).mpr fun _ => holds.2⟩

/-- A call across files. -/
def callAcross : List Op :=
  [.ensureIndexed (str "a.c") (some ⟨str "int f() { }", 1, 11⟩),
    .ensureIndexed (str "b.c") (some ⟨str "int g() { f(); }", 1, 16⟩)]

/-- The caller in the other file is not found from the symbol that it calls. -/
theorem agree_fails : ¬ ∀ limits ops idx (c s : Sym), indexRun limits ops = some idx →
    idx.symById c.id = some c → idx.symById s.id = some s →
    idx.lookup s.name c.file = some s → Agree idx c s := by
  intro claim
  obtain ⟨idx, c, s, ran, caller, called, holds⟩ := exists_pair {} callAcross 2 1
    (fun idx c s => decide (idx.lookup s.name c.file = some s) &&
      decide (s.name ∈ idx.callees c.id) && decide (c.id ∉ idx.callersOf s.id)) (by decide +kernel)
  simp only [Bool.and_eq_true, decide_eq_true_eq] at holds
  obtain ⟨⟨resolves, calls⟩, unseen⟩ := holds
  exact unseen ((claim _ _ idx c s ran caller called resolves).inverse.mpr calls)

end Opencodepp.Graph
