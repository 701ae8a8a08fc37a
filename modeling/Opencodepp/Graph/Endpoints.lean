import Opencodepp.Graph.CallGraph
import Opencodepp.Graph.Representation

/-!
# The endpoints of dependencies

A parsed file leaves its symbols and dependencies in the index, up to the caps, with the
endpoints moved by the length of the array.  The caps cut the two lists independently: a
dependency that is kept may be attributed to a symbol that is not, and then its source is an
id that the next file takes.
-/

set_option autoImplicit false

namespace Opencodepp.Graph

open Opencodepp.Core
open Opencodepp.Library
open Opencodepp.Library.Ranges

/-! ## What an extractor attributes -/

/-- The function definitions found in a text. -/
def defsOf (lang : Lang) (text : Bytes) : List FuncDef :=
  let code := maskCommentsAndStrings text
  match lang with
  | .unknown => []
  | .c | .cpp => definitions (foundCpp code)
  | .go => definitions (foundGo code)

/-- The calls found in a text. -/
def sitesOf (lang : Lang) (text : Bytes) : List CallSite :=
  let code := maskCommentsAndStrings text
  match lang with
  | .unknown => []
  | .c | .cpp => callSites kCKeywords code (defsOf lang text)
  | .go => callSites kGoKeywords code (defsOf lang text)

/-- A call lies in the body of a definition. -/
def FuncDef.Encloses (f : FuncDef) (site : CallSite) : Prop :=
  f.bodyOpen < site.off ∧ site.off < f.bodyEnd

/-- A symbol stands for a definition: it has its name and extends over it. -/
structure Sym.StandsFor (s : Sym) (f : FuncDef) : Prop where
  name : s.name = f.name
  start : s.start = f.start.toUInt32
  end_ : s.end_ = f.bodyEnd.toUInt32

/-- A dependency as the extractor leaves it: not resolved, and attributed to the symbol of a
definition whose body has the call, or to none. -/
structure Attributed (lang : Lang) (text : Bytes) (syms : List Sym) (d : Dep) : Prop where
  unresolved : d.toSym = 0
  encloses : d.fromSym ≠ 0 → ∃ site ∈ sitesOf lang text, ∃ f ∈ defsOf lang text,
    ∃ s, syms[d.fromSym - 1]? = some s ∧ s.StandsFor f ∧ f.Encloses site ∧ site.name = d.toName

theorem encloses_of_insideDef {defs : List FuncDef} {off i : Nat}
    (inside : insideDef defs off = some i) :
    ∃ f, defs[i]? = some f ∧ f.bodyOpen < off ∧ off < f.bodyEnd := by
  obtain ⟨short, here, _⟩ := List.findIdx?_eq_some_iff_getElem.mp inside
  exact ⟨defs[i], List.getElem?_eq_getElem short, by simpa using here⟩

theorem attributed_callDep {lang : Lang} {text file : Bytes} {syms : List Sym} {base : Nat}
    (layout : ∀ (i : Nat) f, (defsOf lang text)[i]? = some f →
      ∃ s, syms[base + i]? = some s ∧ s.StandsFor f)
    {site : CallSite} (member : site ∈ sitesOf lang text) :
    Attributed lang text syms (callDep file base (defsOf lang text) site) where
  unresolved := rfl
  encloses attributed := by
    simp only [callDep, enclosing] at attributed ⊢
    cases inside : insideDef (defsOf lang text) site.off with
    | none => simp [inside] at attributed
    | some i =>
        obtain ⟨f, found, encloses⟩ := encloses_of_insideDef inside
        obtain ⟨s, there, stands⟩ := layout i f found
        exact ⟨site, member, f, List.mem_of_getElem? found, s, by simpa using there, stands,
          encloses, rfl⟩

theorem attributed_includeDep {lang : Lang} {text file target : Bytes} {syms : List Sym} :
    Attributed lang text syms (includeDep file target) :=
  ⟨rfl, fun attributed => absurd rfl attributed⟩

theorem standsFor_defSym (code : Bytes) (f : FuncDef) : (defSym code f).StandsFor f :=
  ⟨rfl, rfl, rfl⟩

theorem standsFor_goDefSym (code : Bytes) (f : FuncDef) : (goDefSym code f).StandsFor f :=
  ⟨rfl, rfl, rfl⟩

theorem includeOf_eq_some {file : Bytes} {l : Line} {d : Dep} (directive : includeOf file l = some d) :
    ∃ target, d = includeDep file target := by
  unfold includeOf at directive
  simp only [bind, Option.bind_eq_some_iff] at directive
  obtain ⟨_, _, _, _, _, _, _, _, same⟩ := directive
  exact ⟨_, (Option.some.inj same).symm⟩

theorem importOf_eq_some {file line : Bytes} {d : Dep} (named : importOf file line = some d) :
    ∃ target, d = includeDep file target := by
  unfold importOf at named
  simp only [bind, Option.bind_eq_some_iff] at named
  obtain ⟨_, _, _, _, same⟩ := named
  exact ⟨_, (Option.some.inj same).symm⟩

theorem mem_importsOf {file src : Bytes} {l : Line} {d : Dep} (member : d ∈ importsOf file src l) :
    ∃ target, d = includeDep file target := by
  unfold importsOf at member
  dsimp only at member
  split at member
  · cases member
  split at member
  · obtain ⟨_, _, named⟩ := List.mem_filterMap.mp member
    exact importOf_eq_some named
  · exact importOf_eq_some (Option.mem_toList.mp member)

/-- Definitions come first among the symbols of C and C++. -/
theorem layout_cpp (code : Bytes) {i : Nat} {f : FuncDef}
    (there : (definitions (foundCpp code))[i]? = some f) :
    ∃ s, (cppSyms code)[0 + i]? = some s ∧ s.StandsFor f := by
  have short := (List.getElem?_eq_some_iff.mp there).1
  refine ⟨defSym code f, ?_, standsFor_defSym code f⟩
  rw [Nat.zero_add, cppSyms, List.getElem?_append_left (by simp; omega),
    List.getElem?_append_left (by simpa using short), List.getElem?_map, there]
  rfl

/-- In Go the packages stand before the definitions. -/
theorem layout_go (text : Bytes) {i : Nat} {f : FuncDef}
    (there : (definitions (foundGo (maskCommentsAndStrings text)))[i]? = some f) :
    ∃ s, (goSyms text)[(goPackages text).length + i]? = some s ∧ s.StandsFor f := by
  have short := (List.getElem?_eq_some_iff.mp there).1
  refine ⟨goDefSym (maskCommentsAndStrings text) f, ?_, standsFor_goDefSym _ f⟩
  rw [goSyms, List.getElem?_append_left (by simpa using short),
    List.getElem?_append_right (by omega), Nat.add_sub_cancel_left, List.getElem?_map, there]
  rfl

theorem attributed_cpp {lang : Lang} (c : lang = .c ∨ lang = .cpp) {file text : Bytes}
    {syms : List Sym} {deps : List Dep} (found : extractCpp file text = .found syms deps)
    {d : Dep} (member : d ∈ deps) : Attributed lang text syms d := by
  have defs : defsOf lang text = definitions (foundCpp (maskCommentsAndStrings text)) := by
    rcases c with rfl | rfl <;> rfl
  have sites : sitesOf lang text =
      callSites kCKeywords (maskCommentsAndStrings text) (defsOf lang text) := by
    rcases c with rfl | rfl <;> rfl
  unfold extractCpp at found
  dsimp only at found
  split at found
  · cases found
  simp only [Extraction.found.injEq] at found
  obtain ⟨rfl, rfl⟩ := found
  rcases List.mem_append.mp member with includes | calls
  · obtain ⟨l, _, directive⟩ := List.mem_filterMap.mp includes
    obtain ⟨target, rfl⟩ := includeOf_eq_some directive
    exact attributed_includeDep
  · rw [← defs] at calls
    obtain ⟨site, called, rfl⟩ := List.mem_map.mp calls
    exact attributed_callDep (fun i f there => layout_cpp _ (defs ▸ there)) (sites ▸ called)

theorem attributed_go {file text : Bytes} {syms : List Sym} {deps : List Dep}
    (found : extractGo file text = .found syms deps) {d : Dep} (member : d ∈ deps) :
    Attributed .go text syms d := by
  simp only [extractGo, Extraction.found.injEq] at found
  obtain ⟨rfl, rfl⟩ := found
  rcases List.mem_append.mp member with imports | calls
  · obtain ⟨l, _, inLine⟩ := List.mem_flatMap.mp imports
    obtain ⟨target, rfl⟩ := mem_importsOf inLine
    exact attributed_includeDep
  · obtain ⟨site, called, rfl⟩ := List.mem_map.mp calls
    have layout : ∀ (i : Nat) f, (defsOf .go text)[i]? = some f →
        ∃ s, (goSyms text)[(goPackages text).length + i]? = some s ∧ s.StandsFor f :=
      fun i f there => layout_go text there
    exact attributed_callDep layout called

theorem attributed_of_found {lang : Lang} {file text : Bytes} {syms : List Sym} {deps : List Dep}
    (found : extractLang lang file text = .found syms deps) {d : Dep} (member : d ∈ deps) :
    Attributed lang text syms d := by
  cases lang with
  | unknown => cases found
  | c => exact attributed_cpp (.inl rfl) found member
  | cpp => exact attributed_cpp (.inr rfl) found member
  | go => exact attributed_go found member

/-! ## What a parse leaves in the index -/

/-- The entries of a file. -/
def own {α : Type} (owner : α → Option Bytes) (file : Bytes) (entries : List α) : List α :=
  entries.filter fun x => owner x = some file

/-- What the index holds of a file is what its extractor found in the text, up to the caps and
moved to where the symbols start. -/
structure Imprint (idx : SymbolIndex) (file text : Bytes) (syms : List Sym) (deps : List Dep)
    (base : Nat) : Prop where
  found : extractLang (detectLang file) file text = .found syms deps
  ownSyms : own symOwner file idx.syms =
    numbered file (detectLang file) base (syms.take idx.limits.maxSymsPerFile)
  ownDeps : own depOwner file idx.deps =
    (deps.take idx.limits.maxDepsPerFile).map
      (rebased file base (numbered file (detectLang file) base
        (syms.take idx.limits.maxSymsPerFile)))

variable {idx : SymbolIndex} {file text : Bytes} {syms : List Sym} {deps : List Dep} {base : Nat}

/-- An imprint depends on the entries of the file and on the caps. -/
theorem Imprint.congr {next : SymbolIndex} (imprint : Imprint idx file text syms deps base)
    (sameSyms : own symOwner file next.syms = own symOwner file idx.syms)
    (sameDeps : own depOwner file next.deps = own depOwner file idx.deps)
    (maxSyms : next.limits.maxSymsPerFile = idx.limits.maxSymsPerFile)
    (maxDeps : next.limits.maxDepsPerFile = idx.limits.maxDepsPerFile) :
    Imprint next file text syms deps base :=
  ⟨imprint.found, by rw [sameSyms, maxSyms, imprint.ownSyms],
    by rw [sameDeps, maxSyms, maxDeps, imprint.ownDeps]⟩

theorem filter_bury {α : Type} {tombstone : α} {r : Range} {keep : α → Bool}
    (dead : keep tombstone = false) {entries : List α}
    (others : ∀ (i : Nat) x, entries[i]? = some x → r.Has i → keep x = false) :
    (bury tombstone r entries).filter keep = entries.filter keep := by
  -- over any set of positions, since the tail sees a shifted one
  have general : ∀ (entries : List α) (gone : Nat → Bool),
      (∀ (i : Nat) x, entries[i]? = some x → gone i = true → keep x = false) →
      (entries.mapIdx fun i x => if gone i then tombstone else x).filter keep =
        entries.filter keep := by
    intro entries
    induction entries with
    | nil => simp
    | cons x rest ih =>
        intro gone others
        have tail := ih (fun i => gone (i + 1)) fun i y there => others (i + 1) y (by simpa using there)
        rw [List.mapIdx_cons]
        cases first : gone 0 with
        | true => simp [first, dead, others 0 x rfl first, tail]
        | false => simp [first, List.filter_cons, tail]
  have positions := general entries (fun i => r.Has i) fun i x there gone =>
    others i x there (by simpa using gone)
  simpa [bury] using positions

theorem own_bury {α : Type} {owner : α → Option Bytes} {entries : List α}
    {range : ParsedFile → Range} {files : Table ParsedFile}
    (owned : Owned owner entries (rangesOf range files)) {gone : Bytes} {pf : ParsedFile}
    (known : files.lookup gone = some pf) {tombstone : α} (dead : owner tombstone = none)
    (other : file ≠ gone) :
    own owner file (bury tombstone (range pf) entries) = own owner file entries := by
  refine filter_bury (by simp [dead]) fun i x there inside => ?_
  have owns := (owned i gone).mpr ⟨range pf, Option.map_eq_some_iff.mpr ⟨pf, known, rfl⟩, inside⟩
  rw [there, Option.bind_some] at owns
  simp [owns, Ne.symm other]

/-- A file that is not indexed has no entries. -/
theorem own_of_notMem {α : Type} {owner : α → Option Bytes} {entries : List α}
    {range : ParsedFile → Range} {files : Table ParsedFile}
    (owned : Owned owner entries (rangesOf range files)) (absent : file ∉ files) :
    own owner file entries = [] := by
  refine List.filter_eq_nil_iff.mpr fun x member owns => ?_
  obtain ⟨i, there⟩ := List.mem_iff_getElem?.mp member
  obtain ⟨r, known, _⟩ := (owned i file).mp (by simpa [there] using owns)
  simp [rangesOf, AList.lookup_eq_none.mpr absent] at known

theorem mem_files_of_owned {α : Type} {owner : α → Option Bytes} {entries : List α}
    {range : ParsedFile → Range} (owned : Owned owner entries (rangesOf range idx.files)) :
    ∀ x ∈ entries, ∀ file, owner x = some file → file ∈ idx.files.keys := by
  intro x member file owns
  obtain ⟨i, found⟩ := List.mem_iff_getElem?.mp member
  obtain ⟨r, known, _⟩ := (owned i file).mp (by simp [found, owns])
  obtain ⟨pf, known, _⟩ := Option.map_eq_some_iff.mp known
  exact AList.lookup_isSome.mp (Option.isSome_of_eq_some known)

theorem Imprint.dropFile (sound : Sound idx) (imprint : Imprint idx file text syms deps base)
    {gone : Bytes} {pf : ParsedFile} (known : idx.files.lookup gone = some pf)
    (other : file ≠ gone) : Imprint (idx.dropFile gone pf) file text syms deps base :=
  imprint.congr (own_bury sound.symsOwned known rfl other) (own_bury sound.depsOwned known rfl other)
    rfl rfl

theorem Imprint.maybeCompactDeps (imprint : Imprint idx file text syms deps base) :
    Imprint idx.maybeCompactDeps file text syms deps base := by
  unfold SymbolIndex.maybeCompactDeps
  dsimp only
  split
  · exact imprint
  · refine imprint.congr rfl ?_ rfl rfl
    dsimp only
    rw [own, own, List.filter_filter]
    refine List.filter_congr fun d _ => ?_
    by_cases dead : d.fromFile = [] <;> simp [depOwner, dead]

theorem Imprint.removeFile (sound : Sound idx) (imprint : Imprint idx file text syms deps base)
    {gone : Bytes} (other : file ≠ gone) :
    Imprint (idx.removeFile gone) file text syms deps base := by
  unfold SymbolIndex.removeFile
  cases known : idx.files.lookup gone with
  | none => exact imprint
  | some pf => exact (imprint.dropFile sound known other).maybeCompactDeps

theorem own_of_theirs {α : Type} {owner : α → Option Bytes} {entries : List α} {other : Bytes}
    (theirs : ∀ x ∈ entries, owner x = some other) :
    own owner file entries = if file = other then entries else [] := by
  split
  · rename_i same
    exact List.filter_eq_self.mpr fun x member => by simp [theirs x member, same]
  · rename_i differ
    refine List.filter_eq_nil_iff.mpr fun x member owns => differ ?_
    simpa [theirs x member, eq_comm] using owns

theorem own_append {α : Type} (owner : α → Option Bytes) (file : Bytes) (entries more : List α) :
    own owner file (entries ++ more) = own owner file entries ++ own owner file more :=
  List.filter_append ..

/-- Another file at the end of the arrays. -/
theorem Imprint.extractInto (imprint : Imprint idx file text syms deps base) {other : Bytes}
    (differ : file ≠ other) (named : other ≠ []) (lang : Lang) (moreSyms : List Sym)
    (moreDeps : List Dep) :
    Imprint (idx.extractInto other lang moreSyms moreDeps) file text syms deps base := by
  refine imprint.congr ?_ ?_ rfl rfl
  · rw [SymbolIndex.extractInto, own_append, own_of_theirs symOwner_numbered, if_neg differ,
      List.append_nil]
  · rw [SymbolIndex.extractInto, own_append, own_of_theirs (depOwner_rebased named), if_neg differ,
      List.append_nil]

/-- The file itself at the end of the arrays. -/
theorem imprint_extractInto (sound : Sound idx) (absent : file ∉ idx.files)
    (found : extractLang (detectLang file) file text = .found syms deps) :
    Imprint (idx.extractInto file (detectLang file) syms deps) file text syms deps
      idx.syms.length where
  found := found
  ownSyms := by
    rw [SymbolIndex.extractInto, own_append, own_of_notMem sound.symsOwned absent,
      own_of_theirs symOwner_numbered, if_pos rfl, List.nil_append]
  ownDeps := by
    rw [SymbolIndex.extractInto, own_append, own_of_notMem sound.depsOwned absent,
      own_of_theirs (depOwner_rebased (ne_nil_of_found found)), if_pos rfl, List.nil_append]

/-! ## Sessions -/

/-- An index together with the text that every file was last parsed from. -/
structure Session where
  idx : SymbolIndex
  sources : Bytes → Option Bytes

def Session.empty (limits : IndexLimits) : Session := ⟨.empty limits, fun _ => none⟩

/-- The texts after an operation. -/
def sourcesAfter (w : Session) (op : Op) : Bytes → Option Bytes :=
  match parsing w.idx op with
  | some (file, text) => Function.update w.sources file (some text)
  | none => w.sources

def sessionStep (w : Session) (op : Op) : Option Session :=
  (step w.idx op).map fun next => ⟨next, sourcesAfter w op⟩

def sessionRun (limits : IndexLimits) (ops : List Op) : Option Session :=
  Transition.run sessionStep (.empty limits) ops

/-- Every indexed file has the imprint of its text. -/
def Linked (idx : SymbolIndex) (sources : Bytes → Option Bytes) : Prop :=
  ∀ file ∈ idx.files, ∃ text syms deps base, sources file = some text ∧
    Imprint idx file text syms deps base

variable {sources : Bytes → Option Bytes}

/-- What leaves files, entries and caps alone leaves the imprints alone. -/
theorem Linked.congr {next : SymbolIndex} (linked : Linked idx sources)
    (files : ∀ file ∈ next.files, file ∈ idx.files) (sameSyms : next.syms = idx.syms)
    (sameDeps : next.deps = idx.deps)
    (maxSyms : next.limits.maxSymsPerFile = idx.limits.maxSymsPerFile)
    (maxDeps : next.limits.maxDepsPerFile = idx.limits.maxDepsPerFile) : Linked next sources := by
  intro file member
  obtain ⟨text, syms, deps, base, source, imprint⟩ := linked file (files file member)
  exact ⟨text, syms, deps, base, source,
    imprint.congr (by rw [sameSyms]) (by rw [sameDeps]) maxSyms maxDeps⟩

theorem Linked.removeFile (sound : Sound idx) (linked : Linked idx sources) (gone : Bytes) :
    Linked (idx.removeFile gone) sources := by
  intro file member
  obtain ⟨other, member⟩ := idx.mem_removeFile.mp member
  obtain ⟨text, syms, deps, base, source, imprint⟩ := linked file member
  exact ⟨text, syms, deps, base, source, imprint.removeFile sound other⟩

theorem Linked.parsed (sound : Sound idx) (linked : Linked idx sources)
    (found : extractLang (detectLang file) file text = .found syms deps) :
    Linked (idx.parsed file syms deps) (Function.update sources file (some text)) := by
  intro other member
  by_cases same : other = file
  · subst same
    exact ⟨text, syms, deps, _, Function.update_self ..,
      imprint_extractInto (sound.removeFile other) (idx.notMem_removeFile other) found⟩
  · have old : other ∈ (idx.removeFile file).files :=
      ((AList.mem_insert _).mp member).resolve_left same
    obtain ⟨text', syms', deps', base, source, imprint⟩ := linked.removeFile sound file other old
    refine ⟨text', syms', deps', base, ?_, imprint.extractInto same (ne_nil_of_found found) _ _ _⟩
    rw [Function.update_of_ne same, source]

theorem Linked.stamped (linked : Linked idx sources) (file : Bytes) (mtime size : Nat) :
    Linked (idx.stamped file mtime size) sources := by
  refine linked.congr (fun other member => idx.mem_stamped.mp member) ?_ ?_ ?_ ?_ <;>
    · unfold SymbolIndex.stamped
      split <;> rfl

theorem Linked.touched (linked : Linked idx sources) (file : Bytes) :
    Linked (idx.touched file) sources :=
  linked.congr (fun _ => id) rfl rfl rfl rfl

theorem Linked.evictLru (linked : Linked idx sources) (sound : Sound idx) :
    Linked idx.evictLru sources := by
  unfold SymbolIndex.evictLru
  split
  · exact linked
  · cases idx.victim with
    | none => exact linked
    | some file =>
        dsimp only
        split
        · exact linked
        · exact linked.removeFile sound file

theorem Linked.step {w w' : Session} (sound : Sound w.idx) (linked : Linked w.idx w.sources)
    {op : Op} (stepped : sessionStep w op = some w') : Linked w'.idx w'.sources := by
  obtain ⟨next, done, rfl⟩ := Option.map_eq_some_iff.mp stepped
  dsimp only [sourcesAfter]
  cases effect_of_step done with
  | failed nothing =>
      rw [nothing]
      exact linked
  | capped => exact linked.congr (fun _ => id) rfl rfl rfl rfl
  | unchanged same =>
      rw [show parsing w.idx _ = none by simp [parsing, same]]
      exact linked.touched _
  | @extracted file text syms deps found =>
      rw [show parsing w.idx _ = some (file, text) by simp [parsing, readable_of_found found]]
      exact linked.parsed sound found
  | @ensured file stat syms deps found differs =>
      rw [show parsing w.idx _ = some (file, stat.text) by
        simp [parsing, readable_of_found found, differs]]
      have parsed := sound.parsed (ne_nil_of_found found) syms deps
      exact (((linked.parsed sound found).stamped _ _ _).touched _).evictLru
        ((parsed.stamped _ _ _).touched _)

/-- What holds of a session whatever the caps are. -/
structure Settled (w : Session) : Prop where
  sound : Sound w.idx
  linked : Linked w.idx w.sources

theorem Settled.empty (limits : IndexLimits) : Settled (.empty limits) where
  sound := Sound.empty limits
  linked file member := absurd member (AList.notMem_empty file)

theorem Settled.step {w w' : Session} (settled : Settled w) {op : Op}
    (stepped : sessionStep w op = some w') : Settled w' := by
  obtain ⟨next, done, rfl⟩ := Option.map_eq_some_iff.mp stepped
  exact ⟨settled.sound.step done, settled.linked.step settled.sound stepped⟩

/-- A run of the index is the run of a session. -/
theorem exists_session : ∀ {ops : List Op} {w : Session} {idx : SymbolIndex},
    Transition.run step w.idx ops = some idx →
    ∃ w', Transition.run sessionStep w ops = some w' ∧ w'.idx = idx := by
  intro ops
  induction ops with
  | nil =>
      intro w idx ran
      exact ⟨w, rfl, Option.some.inj ran⟩
  | cons op rest ih =>
      intro w idx ran
      obtain ⟨next, stepped, ran⟩ := Option.bind_eq_some_iff.mp ran
      have done : sessionStep w op = some ⟨next, sourcesAfter w op⟩ := by
        simp [sessionStep, stepped]
      obtain ⟨w', ran', same⟩ := ih (w := ⟨next, sourcesAfter w op⟩) ran
      exact ⟨w', Option.bind_eq_some_iff.mpr ⟨_, done, ran'⟩, same⟩

theorem settled_session {limits : IndexLimits} {ops : List Op} {w : Session}
    (ran : sessionRun limits ops = some w) : Settled w :=
  Transition.run_always (fun settled stepped => settled.step stepped) (Settled.empty limits) ran

theorem settled_run {limits : IndexLimits} {ops : List Op} {idx : SymbolIndex}
    (ran : indexRun limits ops = some idx) : ∃ sources, Settled ⟨idx, sources⟩ := by
  obtain ⟨w, session, rfl⟩ := exists_session (w := .empty limits) ran
  exact ⟨w.sources, settled_session session⟩

/-! ## Sound endpoints -/

/-- The endpoints of every live dependency are zero or live symbols of its file: the source one
whose body encloses a call of the name, the target one with the name.  So the callers that are
reported are live symbols of the file of the call. -/
structure Endpoints (w : Session) : Prop where
  source : ∀ d ∈ w.idx.deps, d.fromFile ≠ [] → d.fromSym ≠ 0 →
    ∃ s, w.idx.symById d.fromSym = some s ∧ s.file = d.fromFile ∧
      ∃ text, w.sources d.fromFile = some text ∧
        ∃ site ∈ sitesOf (detectLang d.fromFile) text, ∃ f ∈ defsOf (detectLang d.fromFile) text,
          s.StandsFor f ∧ f.Encloses site ∧ site.name = d.toName
  target : ∀ d ∈ w.idx.deps, d.fromFile ≠ [] → d.toSym ≠ 0 →
    ∃ s, w.idx.symById d.toSym = some s ∧ s.file = d.fromFile ∧ s.name = d.toName
  callers : ∀ id s, w.idx.symById id = some s → ∀ caller ∈ w.idx.callersOf id,
    ∃ c, w.idx.symById caller = some c ∧ c.file = s.file
  callersByName : ∀ name, ∀ caller ∈ w.idx.callersOfName name,
    ∃ c, w.idx.symById caller = some c ∧
      ∃ d ∈ w.idx.deps, d.fromSym = caller ∧ d.toName = name ∧ d.fromFile = c.file

/-- Every call that is kept of a text is attributed to a symbol that is kept. -/
def Kept (limits : IndexLimits) (file text : Bytes) : Prop :=
  ∀ syms deps, extractLang (detectLang file) file text = .found syms deps →
    ∀ d ∈ deps.take limits.maxDepsPerFile, d.fromSym ≤ limits.maxSymsPerFile

instance (limits : IndexLimits) (file text : Bytes) : Decidable (Kept limits file text) :=
  match extracted : extractLang (detectLang file) file text with
  | .found _ deps =>
      decidable_of_iff (∀ d ∈ deps.take limits.maxDepsPerFile, d.fromSym ≤ limits.maxSymsPerFile) (by
        simp only [Kept, extracted, Extraction.found.injEq, and_imp]
        exact ⟨fun all _ _ _ same => same ▸ all, fun kept => kept _ _ rfl rfl⟩)
  | .failed _ => isTrue fun _ _ found => by simp [extracted] at found
  | .terminated => isTrue fun _ _ found => by simp [extracted] at found

/-- An operation parses no text whose calls outlive their functions. -/
def KeepsCallers (w : Session) (op : Op) : Prop :=
  ∀ parsed ∈ parsing w.idx op, Kept w.idx.limits parsed.1 parsed.2

instance (w : Session) (op : Op) : Decidable (KeepsCallers w op) :=
  inferInstanceAs (Decidable (∀ parsed ∈ parsing w.idx op, Kept w.idx.limits parsed.1 parsed.2))

/-- Every source is within the caps. -/
def KeptAll (w : Session) : Prop :=
  ∀ file text, w.sources file = some text → Kept w.idx.limits file text

theorem symById_of_mem (sound : Sound idx) {s : Sym} (member : s ∈ idx.syms) (live : s.id ≠ 0) :
    idx.symById s.id = some s := by
  obtain ⟨i, found⟩ := List.mem_iff_getElem?.mp member
  have place := sound.placed i s found live
  rw [SymbolIndex.symById, if_neg live, place, Nat.add_sub_cancel, found]
  simp [place]

theorem mem_own {α : Type} {owner : α → Option Bytes} {entries : List α} {x : α} :
    x ∈ own owner file entries ↔ x ∈ entries ∧ owner x = some file := by
  simp [own]

/-- A live dependency is the rebased form of one that the extractor found. -/
theorem Linked.dep (sound : Sound idx) (linked : Linked idx sources) {d : Dep}
    (member : d ∈ idx.deps) (live : d.fromFile ≠ []) :
    ∃ text syms deps base, sources d.fromFile = some text ∧
      Imprint idx d.fromFile text syms deps base ∧
      ∃ d₀ ∈ deps.take idx.limits.maxDepsPerFile,
        d = rebased d.fromFile base (own symOwner d.fromFile idx.syms) d₀ := by
  have owns : depOwner d = some d.fromFile := depOwner_eq_some.mpr ⟨live, rfl⟩
  obtain ⟨i, found⟩ := List.mem_iff_getElem?.mp member
  obtain ⟨r, range, _⟩ := (sound.depsOwned i d.fromFile).mp (by simp [found, owns])
  obtain ⟨pf, known, _⟩ := Option.map_eq_some_iff.mp range
  obtain ⟨text, syms, deps, base, source, imprint⟩ :=
    linked d.fromFile (AList.lookup_isSome.mp (Option.isSome_of_eq_some known))
  have mine : d ∈ own depOwner d.fromFile idx.deps := mem_own.mpr ⟨member, owns⟩
  rw [imprint.ownDeps] at mine
  obtain ⟨d₀, kept, same⟩ := List.mem_map.mp mine
  exact ⟨text, syms, deps, base, source, imprint, d₀, kept, imprint.ownSyms ▸ same.symm⟩

/-- A resolved target is the first symbol of its name in the file of the dependency. -/
theorem Linked.toSym_eq (sound : Sound idx) (linked : Linked idx sources) {d : Dep}
    (member : d ∈ idx.deps) (live : d.fromFile ≠ []) :
    d.toSym = (nameToId (own symOwner d.fromFile idx.syms) d.toName).getD 0 := by
  obtain ⟨text, syms, deps, base, _, imprint, d₀, kept, same⟩ := linked.dep sound member live
  have unresolved := (attributed_of_found imprint.found (List.mem_of_mem_take kept)).unresolved
  have target := congrArg Dep.toSym same
  have name := congrArg Dep.toName same
  simp only [rebased, unresolved] at target name
  rw [name]
  exact target

/-- Targets are sound whatever the caps are. -/
theorem Linked.target (sound : Sound idx) (linked : Linked idx sources) {d : Dep}
    (member : d ∈ idx.deps) (live : d.fromFile ≠ []) (resolved : d.toSym ≠ 0) :
    ∃ s, idx.symById d.toSym = some s ∧ s.file = d.fromFile ∧ s.name = d.toName := by
  rw [linked.toSym_eq sound member live, nameToId] at resolved ⊢
  cases first : (own symOwner d.fromFile idx.syms).find? (·.name = d.toName) with
  | none => simp [first] at resolved
  | some s =>
      have name : s.name = d.toName := by simpa using List.find?_some first
      obtain ⟨there, owns⟩ := mem_own.mp (List.mem_of_find?_eq_some first)
      obtain ⟨alive, here⟩ := symOwner_eq_some.mp owns
      exact ⟨s, symById_of_mem sound there alive, here, name⟩

/-- Sources are sound when the attributed symbols were kept. -/
theorem Linked.source (sound : Sound idx) (linked : Linked idx sources)
    (kept : ∀ file text, sources file = some text → Kept idx.limits file text) {d : Dep}
    (member : d ∈ idx.deps) (live : d.fromFile ≠ []) (attributed : d.fromSym ≠ 0) :
    ∃ s, idx.symById d.fromSym = some s ∧ s.file = d.fromFile ∧
      ∃ text, sources d.fromFile = some text ∧
        ∃ site ∈ sitesOf (detectLang d.fromFile) text, ∃ f ∈ defsOf (detectLang d.fromFile) text,
          s.StandsFor f ∧ f.Encloses site ∧ site.name = d.toName := by
  obtain ⟨text, syms, deps, base, known, imprint, d₀, taken, same⟩ := linked.dep sound member live
  have name := congrArg Dep.toName same
  have moved := congrArg Dep.fromSym same
  change d.toName = d₀.toName at name
  change d.fromSym = if d₀.fromSym ≠ 0 then d₀.fromSym + base else 0 at moved
  have local_ : d₀.fromSym ≠ 0 := fun zero => attributed (by rw [moved]; simp [zero])
  obtain ⟨site, called, f, defined, s, found, stands, encloses, sameName⟩ :=
    (attributed_of_found imprint.found (List.mem_of_mem_take taken)).encloses local_
  have inside := kept _ _ known _ _ imprint.found d₀ taken
  -- the symbol survives the cap, and its id is its place in the file moved by the base
  have there : (own symOwner d.fromFile idx.syms)[d₀.fromSym - 1]? =
      some { s with id := d.fromSym, file := d.fromFile, lang := detectLang d.fromFile } := by
    rw [imprint.ownSyms, getElem?_numbered, List.getElem?_take, if_pos (by omega), found,
      Option.map_some, moved, if_pos local_]
    congr 2
    omega
  obtain ⟨stored, _⟩ := mem_own.mp (List.mem_of_getElem? there)
  exact ⟨_, symById_of_mem sound stored attributed, rfl, text, known, site, called, f, defined,
    ⟨stands.name, stands.start, stands.end_⟩, encloses, sameName.trans name.symm⟩

theorem endpoints_of_linked {w : Session} (sound : Sound w.idx) (linked : Linked w.idx w.sources)
    (kept : KeptAll w) : Endpoints w where
  source _ member live attributed := linked.source sound kept member live attributed
  target _ member live resolved := linked.target sound member live resolved
  callers id s here caller calls := by
    obtain ⟨attributed, d, member, live, _, rfl, rfl⟩ := mem_callersOf.mp calls
    obtain ⟨c, found, same, _⟩ := linked.source sound kept member live attributed
    have resolved : d.toSym ≠ 0 := fun zero => by simp [SymbolIndex.symById, zero] at here
    obtain ⟨t, target, file, _⟩ := linked.target sound member live resolved
    obtain rfl : t = s := Option.some.inj (target.symm.trans here)
    exact ⟨c, found, same.trans file.symm⟩
  callersByName name caller calls := by
    obtain ⟨attributed, d, member, live, _, rfl, rfl⟩ := mem_callersOfName.mp calls
    obtain ⟨c, found, same, _⟩ := linked.source sound kept member live attributed
    exact ⟨c, found, d, member, rfl, rfl, same.symm⟩

theorem KeptAll.step {w w' : Session} (kept : KeptAll w) {op : Op} (keeps : KeepsCallers w op)
    (stepped : sessionStep w op = some w') : KeptAll w' := by
  obtain ⟨next, done, rfl⟩ := Option.map_eq_some_iff.mp stepped
  intro file text source
  rw [Kept, limits_step done]
  change Kept w.idx.limits file text
  dsimp only [sourcesAfter] at source
  cases parses : parsing w.idx op with
  | none =>
      rw [parses] at source
      exact kept file text source
  | some parsed =>
      obtain ⟨other, read⟩ := parsed
      rw [parses] at source
      dsimp only at source
      by_cases same : file = other
      · subst same
        obtain rfl : read = text := by simpa using source
        exact keeps _ parses
      · rw [Function.update_of_ne same] at source
        exact kept file text source

/-- **Endpoints are sound as long as no call outlives its function.** -/
theorem endpoints_of_keepsCallers {limits : IndexLimits} {ops : List Op} {w : Session}
    (keeps : Transition.Meets sessionStep KeepsCallers (.empty limits) ops)
    (ran : sessionRun limits ops = some w) : Endpoints w := by
  have start : Settled (.empty limits) ∧ KeptAll (.empty limits) :=
    ⟨Settled.empty limits, fun _ _ source => by cases source⟩
  have preserved : ∀ {w : Session} {op : Op} {next : Session}, Settled w ∧ KeptAll w →
      KeepsCallers w op → sessionStep w op = some next → Settled next ∧ KeptAll next :=
    fun holds keeps stepped => ⟨holds.1.step stepped, holds.2.step keeps stepped⟩
  obtain ⟨settled, kept⟩ := Transition.run_invariant preserved start keeps ran
  exact endpoints_of_linked settled.sound settled.linked kept

/-- Two functions, of which the second calls the first, and then a file with another one. -/
def callerAndStranger : List Op :=
  [.ensureIndexed (str "a.c") (some ⟨str "int f() { }\nint g() { f(); }", 1, 27⟩),
    .ensureIndexed (str "b.c") (some ⟨str "int h() { }", 1, 11⟩)]

theorem endpoints_of_keepsCallers_small : ∃ w, sessionRun {} callerAndStranger = some w ∧
    w.idx.callersOf 1 = [2] ∧ Endpoints w := by
  obtain ⟨w, ran, callers⟩ :=
    (Option.any_eq_true (fun w : Session => w.idx.callersOf 1 == [2]) _).mp
      (show (sessionRun {} callerAndStranger).any _ = true by decide +kernel)
  exact ⟨w, ran, by simpa using callers, endpoints_of_keepsCallers (by decide +kernel) ran⟩

/-- With room for one symbol of a file, the id of the caller goes to the next file. -/
theorem endpoints_fail : ¬ ∀ limits ops w, sessionRun limits ops = some w → Endpoints w := by
  intro claim
  obtain ⟨w, ran, seen⟩ :=
    (Option.any_eq_true (fun w : Session => w.idx.callersOf 1 == [2] &&
      (w.idx.symById 1).map (·.file) == some (str "a.c") &&
      (w.idx.symById 2).map (·.file) == some (str "b.c")) _).mp
      (show (sessionRun { maxSymsPerFile := 1 } callerAndStranger).any _ = true by decide +kernel)
  simp only [Bool.and_eq_true, beq_iff_eq] at seen
  obtain ⟨⟨callers, first⟩, second⟩ := seen
  obtain ⟨s, called, home⟩ := Option.map_eq_some_iff.mp first
  obtain ⟨c, caller, same⟩ := (claim _ _ w ran).callers 1 s called 2 (by simp [callers])
  rw [caller, Option.map_some, same, home] at second
  exact absurd second (by decide)

end Opencodepp.Graph
