import Opencodepp.Graph.Places

/-!
# Symbols and the source

A symbol is faithful when its name is an identifier, or several joined by pairs of colons, that
stands in the source where the symbol says, and its line is the line of that place.
`symbols_faithful_iff` says for which sources the symbols are: there is no global, no newline is
lost under the mask before a name, every part of a name begins with a letter or an underscore,
and the offsets fit into 32 bits.
-/

set_option autoImplicit false

namespace Opencodepp.Graph

open Opencodepp.Library

/-- What a symbol says is so in the source, where its name is read at an offset. -/
structure Faithful (src : Bytes) (off : Nat) (s : Sym) : Prop where
  name : isName s.name = true
  verbatim : slice src off (off + s.name.length) = s.name
  place : s.kind ≠ .function → s.kind ≠ .method → off = s.start.toNat
  within : s.start.toNat ≤ off ∧ off + s.name.length ≤ s.end_.toNat
  extent : s.start.toNat < s.end_.toNat ∧ s.end_.toNat ≤ src.length
  line : s.line.toNat = (src.take off).count newline + 1

/-- All symbols of a file are faithful. -/
def AllFaithful (lang : Lang) (src : Bytes) : Prop :=
  (∀ g ∈ sightings lang src, Faithful src g.off g.report) ∧
    ∀ s ∈ globals lang src, Faithful src s.start.toNat s

/-- The condition on a sighting. -/
structure Sighting.Plain (src : Bytes) (g : Sighting) : Prop where
  letters : ∀ seg ∈ segments g.name, seg.head?.any isLetter = true
  newlines : KeepsNewlines src g.text g.off

/-- The condition on a source, but for its size. -/
structure PlainSource (lang : Lang) (src : Bytes) : Prop where
  noGlobals : globals lang src = []
  plain : ∀ g ∈ sightings lang src, g.Plain src

/-- Every sighting ends at an offset of 32 bits. -/
def FitsOffsets (lang : Lang) (src : Bytes) : Prop := ∀ g ∈ sightings lang src, g.last < 2 ^ 32

theorem toNat_toUInt32 {n : Nat} (small : n < 2 ^ 32) : n.toUInt32.toNat = n :=
  UInt32.toNat_ofNat_of_lt' small

theorem toNat_lineOf {text : Bytes} {off : Nat} (small : off + 1 < 2 ^ 32) :
    (lineOf text off).toNat = (text.take off).count newline + 1 := by
  have fewer : (text.take off).count newline ≤ off :=
    List.count_le_length.trans (List.length_take_le off text)
  exact toNat_toUInt32 (by omega)

/-- A sighting that fits is reported faithfully just where it is plain. -/
theorem faithful_report_iff {src : Bytes} {g : Sighting} (seen : Seen src g)
    (small : g.last < 2 ^ 32) : Faithful src g.off g.report ↔ g.Plain src := by
  obtain ⟨start, stop, inside⟩ := seen.within
  have named := List.length_pos_iff.mpr seen.named
  have line : g.report.line.toNat = (g.text.take g.off).count newline + 1 :=
    toNat_lineOf (by omega)
  have first : g.report.start.toNat = g.first := toNat_toUInt32 (by omega)
  have last : g.report.end_.toNat = g.last := toNat_toUInt32 small
  have kept := (count_of_masks seen.masks g.off).2
  refine ⟨fun faithful => ⟨(isName_iff seen.solid).mp faithful.name, kept.mp ?_⟩, fun plain => ?_⟩
  · have reported := faithful.line
    omega
  · exact
      { name := (isName_iff seen.solid).mpr plain.letters
        verbatim := seen.verbatim
        place := fun noFunction noMethod =>
          (seen.place noFunction noMethod).symm.trans first.symm
        within := ⟨first ▸ start, last ▸ stop⟩
        extent := ⟨by omega, by omega⟩
        line := by rw [line, kept.mpr plain.newlines] }

theorem not_faithful_of_global {lang : Lang} {src : Bytes} {s : Sym} (member : s ∈ globals lang src)
    (off : Nat) : ¬Faithful src off s := by
  intro faithful
  have name : isName s.name = false := by
    cases lang with
    | unknown | go => exact absurd member List.not_mem_nil
    | c | cpp =>
        obtain ⟨l, -, global⟩ := List.mem_filterMap.mp member
        exact globalOf_blank global
  exact absurd (name.symm.trans faithful.name) Bool.false_ne_true

/-- **The symbols of a file are faithful where the source is plain and the offsets fit, and only
there for sources of less than four gigabytes.** -/
theorem symbols_faithful_iff {lang : Lang} {file src : Bytes} {syms : List Sym} {deps : List Dep}
    (found : extractLang lang file src = .found syms deps) :
    syms = (sightings lang src).map Sighting.report ++ globals lang src ∧
      (PlainSource lang src → FitsOffsets lang src → AllFaithful lang src) ∧
      (src.length < 2 ^ 32 → (AllFaithful lang src ↔ PlainSource lang src)) := by
  have enough (plain : PlainSource lang src) (fits : FitsOffsets lang src) :
      AllFaithful lang src := by
    refine ⟨fun g member => ?_, fun s member => ?_⟩
    · exact (faithful_report_iff (seen_sightings member) (fits g member)).mpr
        (plain.plain g member)
    · rw [plain.noGlobals] at member
      exact absurd member List.not_mem_nil
  refine ⟨syms_of_found found, enough, fun small => ?_⟩
  have fits : FitsOffsets lang src := fun g member =>
    Nat.lt_of_le_of_lt (seen_sightings member).within.2.2 small
  refine ⟨fun faithful => ⟨?_, fun g member => ?_⟩, fun plain => enough plain fits⟩
  · refine List.eq_nil_iff_forall_not_mem.mpr fun s member => ?_
    exact not_faithful_of_global member _ (faithful.2 s member)
  · exact (faithful_report_iff (seen_sightings member) (fits g member)).mp (faithful.1 g member)

/-- A type and a member function. -/
def plainText : Bytes := str "struct A {};\nint A::f(int x) { return x; }\n"

theorem symbols_faithful_of_plainText : ∃ syms deps,
    extractLang .cpp [] plainText = .found syms deps ∧ syms.map (·.name) = [str "A::f", str "A"] ∧
      AllFaithful .cpp plainText := by
  have plain : PlainSource .cpp plainText :=
    { noGlobals := by decide +kernel
      plain := fun g member =>
        ⟨(by decide +kernel : ∀ g ∈ sightings .cpp plainText, ∀ seg ∈ segments g.name,
            seg.head?.any isLetter = true) g member,
          (by decide +kernel : ∀ g ∈ sightings .cpp plainText, ∀ i < g.off,
            byteAt plainText i = newline → byteAt g.text i = newline) g member⟩ }
  have fits : FitsOffsets .cpp plainText :=
    (by decide +kernel : ∀ g ∈ sightings .cpp plainText, g.last < 2 ^ 32)
  exact ⟨_, _, rfl, by decide +kernel, (@symbols_faithful_iff .cpp [] plainText _ _ rfl).2.1
    plain fits⟩

/-- A global is called by its name and the blank before it. -/
theorem global_not_faithful : ∃ syms deps,
    extractLang .c [] (str "int x;") = .found syms deps ∧ syms.map (·.name) = [str " x"] ∧
      ¬AllFaithful .c (str "int x;") := by
  refine ⟨_, _, rfl, by decide +kernel, fun faithful => ?_⟩
  have known : (globals .c (str "int x;")).map (fun s => isName s.name) = [false] := by
    decide +kernel
  obtain ⟨s, only⟩ : ∃ s, globals .c (str "int x;") = [s] :=
    List.length_eq_one_iff.mp (by simpa using congrArg List.length known)
  have improper : isName s.name = false := by
    rw [only] at known
    exact (List.cons.inj known).1
  have proper := (faithful.2 s (only ▸ List.mem_singleton_self s)).name
  exact absurd (improper.symm.trans proper) Bool.false_ne_true

end Opencodepp.Graph
