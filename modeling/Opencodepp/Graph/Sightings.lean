import Opencodepp.Graph.Symbols

/-!
# What the extractors see

A sighting is a name and the place at which an extractor reads it, before the offsets are cut to
32 bits: the word behind a keyword, or the name of a definition.  The symbols of a file are the
reports of its sightings, and the globals (`syms_of_found`).
-/

set_option autoImplicit false

namespace Opencodepp.Graph

open Opencodepp.Library

/-! ## Names -/

/-- The parts of a text between pairs of colons. -/
def segments : Bytes → List Bytes
  | [] => [[]]
  | [b] => [[b]]
  | b :: c :: rest =>
      if b = ch ':' ∧ c = ch ':' then [] :: segments rest
      else (segments (c :: rest)).modifyHead (b :: ·)

def isLetter (b : UInt8) : Bool := isIdentChar b && !isDigit b

def isIdentifier (s : Bytes) : Bool := s.head?.any isLetter && s.all isIdentChar

/-- An identifier, or several that are joined by pairs of colons. -/
def isName (s : Bytes) : Bool := (segments s).all isIdentifier

/-- Identifier characters and pairs of colons. -/
def Solid (s : Bytes) : Prop := ∀ seg ∈ segments s, ∀ b ∈ seg, isIdentChar b = true

theorem segments_ne_nil (s : Bytes) : segments s ≠ [] := by
  fun_induction segments s with
  | case1 => exact List.cons_ne_nil _ _
  | case2 b => exact List.cons_ne_nil _ _
  | case3 b c rest colons inductionHypothesis => exact List.cons_ne_nil _ _
  | case4 b c rest single inductionHypothesis =>
      cases parts : segments (c :: rest) with
      | nil => exact absurd parts inductionHypothesis
      | cons seg others => exact List.cons_ne_nil _ _

theorem segments_cons {b : UInt8} (plain : b ≠ ch ':') (s : Bytes) :
    segments (b :: s) = (segments s).modifyHead (b :: ·) := by
  cases s with
  | nil => rfl
  | cons c rest => exact if_neg fun colons => plain colons.1

theorem segments_colons (s : Bytes) : segments (ch ':' :: ch ':' :: s) = [] :: segments s :=
  if_pos ⟨rfl, rfl⟩

theorem Solid.cons {b : UInt8} {s : Bytes} (ident : isIdentChar b = true) (solid : Solid s) :
    Solid (b :: s) := by
  have plain : b ≠ ch ':' := by
    rintro rfl
    exact absurd ident (by decide)
  unfold Solid at solid ⊢
  rw [segments_cons plain]
  cases parts : segments s with
  | nil => exact absurd parts (segments_ne_nil s)
  | cons seg others =>
      rw [parts] at solid
      obtain ⟨first, rest⟩ := List.forall_mem_cons.mp solid
      exact List.forall_mem_cons.mpr ⟨List.forall_mem_cons.mpr ⟨ident, first⟩, rest⟩

theorem Solid.colons {s : Bytes} (solid : Solid s) : Solid (ch ':' :: ch ':' :: s) := by
  unfold Solid
  rw [segments_colons]
  exact List.forall_mem_cons.mpr ⟨fun _ never => absurd never List.not_mem_nil, solid⟩

theorem solid_nil : Solid [] := by
  intro seg member b inside
  rw [List.mem_singleton.mp member] at inside
  exact absurd inside List.not_mem_nil

theorem solid_append {s t : Bytes} (ident : ∀ b ∈ s, isIdentChar b = true) (solid : Solid t) :
    Solid (s ++ t) := by
  induction s with
  | nil => exact solid
  | cons b rest inductionHypothesis =>
      obtain ⟨first, others⟩ := List.forall_mem_cons.mp ident
      exact (inductionHypothesis others).cons first

theorem mem_segments_of_mem {s : Bytes} : ∀ b ∈ s, b = ch ':' ∨ ∃ seg ∈ segments s, b ∈ seg := by
  fun_induction segments s with
  | case1 => exact fun b never => absurd never List.not_mem_nil
  | case2 b => exact fun b' member => .inr ⟨_, List.mem_singleton_self _, member⟩
  | case3 b c rest colons inductionHypothesis =>
      intro b' member
      rcases List.mem_cons.mp member with rfl | others
      · exact .inl colons.1
      rcases List.mem_cons.mp others with rfl | later
      · exact .inl colons.2
      · exact (inductionHypothesis b' later).imp_right fun ⟨seg, there, inside⟩ =>
          ⟨seg, List.mem_cons_of_mem _ there, inside⟩
  | case4 b c rest single inductionHypothesis =>
      intro b' member
      cases parts : segments (c :: rest) with
      | nil => exact absurd parts (segments_ne_nil _)
      | cons seg others =>
          rw [List.modifyHead_cons]
          rcases List.mem_cons.mp member with rfl | later
          · exact .inr ⟨_, List.mem_cons_self, List.mem_cons_self⟩
          · rw [parts] at inductionHypothesis
            refine (inductionHypothesis b' later).imp_right fun ⟨seg', there, inside⟩ => ?_
            rcases List.mem_cons.mp there with rfl | other
            · exact ⟨_, List.mem_cons_self, List.mem_cons_of_mem _ inside⟩
            · exact ⟨seg', List.mem_cons_of_mem _ other, inside⟩

/-- No byte of such a text is a blank. -/
theorem blank_notMem_of_solid {s : Bytes} (solid : Solid s) : blank ∉ s := by
  intro member
  rcases mem_segments_of_mem blank member with colon | ⟨seg, there, inside⟩
  · exact absurd colon (by decide)
  · exact absurd (solid seg there blank inside) (by decide)

/-- Such a text is a name when all its parts begin with a letter or an underscore. -/
theorem isName_iff {s : Bytes} (solid : Solid s) :
    isName s = true ↔ ∀ seg ∈ segments s, seg.head?.any isLetter = true := by
  unfold isName isIdentifier
  rw [List.all_eq_true]
  refine forall₂_congr fun seg member => ?_
  have ident : seg.all isIdentChar = true := List.all_eq_true.mpr (solid seg member)
  rw [ident, Bool.and_true]

/-- A name does not begin with a blank. -/
theorem not_isName_of_blank {b : UInt8} (white : isBlank b = true) (s : Bytes) :
    isName (b :: s) = false := by
  have plain : b ≠ ch ':' := by
    rintro rfl
    exact absurd white (by decide)
  have noLetter : isLetter b = false := by
    unfold isBlank at white
    simp only [Bool.or_eq_true, decide_eq_true_eq] at white
    rcases white with rfl | rfl
    · rfl
    · rfl
  unfold isName
  rw [segments_cons plain]
  cases parts : segments s with
  | nil => exact absurd parts (segments_ne_nil s)
  | cons seg others => simp [isIdentifier, noLetter]

/-! ## Sightings -/

/-- A name, the text and the place at which it is read, and the extent of what it names. -/
structure Sighting where
  kind : SymKind
  name : Bytes
  text : Bytes
  off : Nat
  first : Nat
  last : Nat
  vis : Visibility := .unknown

/-- The symbol of a sighting. -/
def Sighting.report (g : Sighting) : Sym :=
  { kind := g.kind, name := g.name, qual := g.name, line := lineOf g.text g.off
    start := g.first.toUInt32, end_ := g.last.toUInt32, vis := g.vis }

/-- The word a text begins with, which is what is left of a line. -/
def wordSighting (kind : SymKind) (text : Bytes) (l : Line) (rest : Bytes) : Option Sighting :=
  let name := identOf rest
  let off := l.fin - rest.length
  if name = [] then none else some { kind, name, text, off, first := off, last := off + name.length }

def defSighting (code : Bytes) (d : FuncDef) : Sighting :=
  { kind := .function, name := d.name, text := code, off := d.nameOff, first := d.start
    last := d.bodyEnd }

/-- The text behind the keyword of a line, and the kind of symbol it declares. -/
def cppWord (l : Line) : Option (SymKind × Bytes) :=
  let t := ltrim l.sv
  if t = [] then none
  else if t.head? = some (ch '#') then
    if (str "#define").isPrefixOf t then some (.macro_, ltrim (t.drop 7)) else none
  else
    let rest := if (str "typedef").isPrefixOf t then ltrim (t.drop 7) else t
    let w := identOf rest
    let after := ltrim (rest.drop w.length)
    if w ∈ ["struct", "class", "enum", "union"].map str then
      if w = str "enum" ∧ identOf after = str "class" then
        (after.findIdx? isBlank).map fun k => (tagKind w, ltrim (after.drop k))
      else some (tagKind w, after)
    else if (str "namespace").isPrefixOf t then some (.namespace_, ltrim (t.drop 9))
    else none

def cppWordSighting (code : Bytes) (l : Line) : Option Sighting :=
  (cppWord l).bind fun word => wordSighting word.1 code l word.2

theorem report_wordSighting (kind : SymKind) (text : Bytes) (l : Line) (rest : Bytes) :
    (wordSighting kind text l rest).map Sighting.report = wordSym kind text l rest := by
  unfold wordSighting wordSym
  dsimp only
  split
  · rfl
  · refine congrArg some ?_
    simp [Sighting.report, nameSym]

theorem ofSym_eq_extra {found : Option Sym} {s : Sym} :
    Found.ofSym found = .extra s ↔ found = some s := by
  cases found with
  | none => exact ⟨fun never => (nomatch never), fun never => (nomatch never)⟩
  | some t =>
      show Found.extra t = .extra s ↔ some t = some s
      rw [Found.extra.injEq, Option.some.injEq]

theorem classifyCpp_eq_extra {code : Bytes} {l : Line} {s : Sym} :
    classifyCpp code l = .extra s ↔ (cppWordSighting code l).map Sighting.report = some s := by
  have word (kind : SymKind) (rest : Bytes) : Found.ofSym (wordSym kind code l rest) = .extra s ↔
      (wordSighting kind code l rest).map Sighting.report = some s := by
    rw [ofSym_eq_extra, report_wordSighting]
  have nothing {found : Found} (other : ∀ s, found ≠ .extra s) :
      found = .extra s ↔ Option.map Sighting.report none = some s :=
    ⟨fun same => absurd same (other s), fun never => (nomatch never)⟩
  unfold classifyCpp cppWordSighting cppWord tagOf
  extract_lets t rest w after
  split
  · exact nothing fun _ never => nomatch never
  split
  · split
    · exact word ..
    · exact nothing fun _ never => nomatch never
  split
  · split
    · cases after.findIdx? isBlank with
      | none => exact nothing fun _ never => nomatch never
      | some k => exact word ..
    · exact word ..
  split
  · exact word ..
  · refine nothing fun s never => ?_
    split at never <;> cases never

/-- What the words of a text report, in the order of its lines. -/
theorem extras_map {classify : Line → Found} {word : Line → Option Sighting}
    (same : ∀ l s, classify l = .extra s ↔ (word l).map Sighting.report = some s)
    (lines : List Line) :
    extras (lines.map classify) = (lines.filterMap word).map Sighting.report := by
  unfold extras
  rw [List.filterMap_map, List.map_filterMap]
  refine List.filterMap_congr fun l _ => ?_
  dsimp only [Function.comp_apply]
  cases reported : (word l).map Sighting.report with
  | some s => rw [(same l s).mpr reported]
  | none =>
      split
      · next s found =>
          rw [(same l s).mp found] at reported
          cases reported
      · rfl

def cppSightings (code : Bytes) : List Sighting :=
  (definitions (foundCpp code)).map (defSighting code) ++
    (linesOf code).filterMap (cppWordSighting code)

def cppGlobals (code : Bytes) : List Sym :=
  (linesOf code).filterMap (globalOf code (definitions (foundCpp code)))

theorem cppSyms_eq (code : Bytes) :
    cppSyms code = (cppSightings code).map Sighting.report ++ cppGlobals code := by
  unfold cppSyms cppSightings cppGlobals
  have words : extras (foundCpp code) = _ :=
    extras_map (fun l s => classifyCpp_eq_extra) (linesOf code)
  rw [words, List.map_append, List.map_map]
  rfl

/-- The text behind the keyword of a line of Go, and the kind of symbol it declares. -/
def goWord (l : Line) : Option (SymKind × Bytes) :=
  let t := ltrim l.sv
  if (str "func").isPrefixOf t ∧ (t.drop 4).head?.all isBlank then none
  else if (str "type").isPrefixOf t then some (.type, ltrim (t.drop 4))
  else if (str "var").isPrefixOf t then some (.global, ltrim (t.drop 3))
  else if (str "const").isPrefixOf t then some (.const_, ltrim (t.drop 5))
  else none

/-- Types are exported or not. -/
def Sighting.exported (g : Sighting) : Sighting :=
  if g.kind = .type then { g with vis := goVisibility g.name } else g

def goWordSighting (code : Bytes) (l : Line) : Option Sighting :=
  (goWord l).bind fun word => (wordSighting word.1 code l word.2).map Sighting.exported

def packageSighting (src : Bytes) (l : Line) : Option Sighting :=
  let t := ltrim l.sv
  if (str "package").isPrefixOf t then wordSighting .package src l (ltrim (t.drop 7)) else none

def goDefSighting (code : Bytes) (d : FuncDef) : Sighting :=
  { defSighting code d with
    kind := if beforeName code d = some (ch ')') then .method else .function
    vis := goVisibility d.name }

theorem kind_of_wordSighting {kind : SymKind} {text : Bytes} {l : Line} {rest : Bytes}
    {g : Sighting} (seen : wordSighting kind text l rest = some g) : g.kind = kind := by
  unfold wordSighting at seen
  dsimp only at seen
  split at seen
  · cases seen
  · cases seen
    rfl

theorem classifyGo_eq_extra {code : Bytes} {l : Line} {s : Sym} :
    classifyGo code l = .extra s ↔ (goWordSighting code l).map Sighting.report = some s := by
  have word {kind : SymKind} (untyped : kind ≠ .type) (rest : Bytes) :
      Found.ofSym (wordSym kind code l rest) = .extra s ↔
        ((wordSighting kind code l rest).map Sighting.exported).map Sighting.report = some s := by
    rw [ofSym_eq_extra, ← report_wordSighting]
    cases seen : wordSighting kind code l rest with
    | none => exact Iff.rfl
    | some g =>
        have same : g.exported = g := if_neg (kind_of_wordSighting seen ▸ untyped)
        rw [Option.map_some, Option.map_some, Option.map_some, same]
  unfold classifyGo goWordSighting goWord
  extract_lets t
  split
  · refine ⟨fun never => ?_, fun never => (nomatch never)⟩
    split at never <;> cases never
  split
  · rw [ofSym_eq_extra, ← report_wordSighting, Option.bind_some]
    cases seen : wordSighting .type code l (ltrim (t.drop 4)) with
    | none => exact Iff.rfl
    | some g =>
        have same : g.exported = { g with vis := goVisibility g.name } :=
          if_pos (kind_of_wordSighting seen)
        rw [Option.map_some, Option.map_some, Option.map_some, Option.map_some, same]
        rfl
  split
  · exact word (by decide) _
  split
  · exact word (by decide) _
  · exact ⟨fun never => (nomatch never), fun never => (nomatch never)⟩

def goSightings (src : Bytes) : List Sighting :=
  let code := maskCommentsAndStrings src
  (linesOf src).filterMap (packageSighting src) ++
    (definitions (foundGo code)).map (goDefSighting code) ++
    (linesOf code).filterMap (goWordSighting code)

theorem goSyms_eq (src : Bytes) : goSyms src = (goSightings src).map Sighting.report := by
  unfold goSyms goSightings goPackages
  dsimp only
  have words : extras (foundGo (maskCommentsAndStrings src)) = _ :=
    extras_map (fun l s => classifyGo_eq_extra) (linesOf (maskCommentsAndStrings src))
  have packages : (linesOf src).filterMap (packageOf src) =
      ((linesOf src).filterMap (packageSighting src)).map Sighting.report := by
    rw [List.map_filterMap]
    refine List.filterMap_congr fun l _ => ?_
    unfold packageOf packageSighting
    dsimp only
    split
    · exact (report_wordSighting ..).symm
    · rfl
  rw [words, packages, List.map_append, List.map_append, List.map_map]
  rfl

/-- The sightings of a file, but for the globals of C and C++. -/
def sightings : Lang → Bytes → List Sighting
  | .unknown, _ => []
  | .c, src | .cpp, src => cppSightings (maskCommentsAndStrings src)
  | .go, src => goSightings src

/-- The globals, whose names are taken with the blanks before them. -/
def globals : Lang → Bytes → List Sym
  | .c, src | .cpp, src => cppGlobals (maskCommentsAndStrings src)
  | .unknown, _ | .go, _ => []

/-- The symbols of a file are the reports of its sightings, and the globals. -/
theorem syms_of_found {lang : Lang} {file src : Bytes} {syms : List Sym} {deps : List Dep}
    (found : extractLang lang file src = .found syms deps) :
    syms = (sightings lang src).map Sighting.report ++ globals lang src := by
  cases lang with
  | unknown => cases found
  | c | cpp =>
      simp only [extractLang, extractCpp] at found
      split at found
      · cases found
      · cases found
        exact cppSyms_eq _
  | go =>
      cases found
      exact (goSyms_eq src).trans (List.append_nil _).symm

end Opencodepp.Graph
