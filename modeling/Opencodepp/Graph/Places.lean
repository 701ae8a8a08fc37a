import Mathlib.Data.List.TakeWhile
import Opencodepp.Graph.Sightings

/-!
# The places of sightings

`Seen` is what holds of every sighting: its name stands in the source at its place, within its
extent, and is made of identifier characters and pairs of colons (`seen_sightings`).  What the
scanners have left of a line is a suffix of it, so the place of a word is known by the length of
the rest.  The name of a definition of C++ is read backwards from its argument list, over pairs
of colons, and stops at the newline before its line.
-/

set_option autoImplicit false

namespace Opencodepp.Graph

open Opencodepp.Library

/-! ## Where sightings are -/

/-- What holds of a sighting in a source: its name stands at its place, within its extent, in the
source as in the text it was read from. -/
structure Seen (src : Bytes) (g : Sighting) : Prop where
  verbatim : slice src g.off (g.off + g.name.length) = g.name
  named : g.name ≠ []
  solid : Solid g.name
  within : g.first ≤ g.off ∧ g.off + g.name.length ≤ g.last ∧ g.last ≤ src.length
  place : g.kind ≠ .function → g.kind ≠ .method → g.first = g.off
  masks : List.Forall₂ Masks src g.text

/-- A part of a masked text without blanks is read as it is in the source. -/
theorem verbatim_of_masks {src text name : Bytes} (masks : List.Forall₂ Masks src text)
    (solid : Solid name) {off : Nat} (read : slice text off (off + name.length) = name) :
    slice src off (off + name.length) = name := by
  have same := eq_of_masks (masks_slice masks off (off + name.length))
    (read.symm ▸ blank_notMem_of_solid solid)
  rw [← same, read]

theorem solid_identOf (s : Bytes) : Solid (identOf s) := by
  have ident : ∀ b ∈ identOf s, isIdentChar b = true := fun b member => List.mem_takeWhile_imp member
  simpa using solid_append ident solid_nil

theorem ltrim_suffix (s : Bytes) : ltrim s <:+ s := List.dropWhile_suffix _

/-- What is left of a text behind a keyword and blanks. -/
theorem ltrim_drop_suffix {s t : Bytes} (suffix : s <:+ t) (n : Nat) : ltrim (s.drop n) <:+ t :=
  (ltrim_suffix _).trans ((List.drop_suffix n s).trans suffix)

theorem slice_of_drop {text s tail : Bytes} {off n : Nat} (rest : text.drop off = s ++ tail)
    (inside : n ≤ s.length) : slice text off (off + n) = s.take n := by
  unfold slice
  rw [rest, Nat.add_sub_cancel_left, List.take_append_of_le_length inside]

theorem seen_wordSighting {src text : Bytes} (masks : List.Forall₂ Masks src text) {l : Line}
    (inside : l.In text) {rest : Bytes} (suffix : rest <:+ l.sv) {kind : SymKind} {g : Sighting}
    (seen : wordSighting kind text l rest = some g) : Seen src g := by
  unfold wordSighting at seen
  dsimp only at seen
  split at seen
  · cases seen
  · next named =>
      cases seen
      obtain ⟨-, fin, tail, shape⟩ := inside.drop_of_suffix suffix
      have whole : (identOf rest).length ≤ rest.length := (List.takeWhile_prefix _).length_le
      have read : slice text (l.fin - rest.length) (l.fin - rest.length + (identOf rest).length) =
          identOf rest := by
        rw [slice_of_drop shape whole]
        exact (List.prefix_iff_eq_take.mp (List.takeWhile_prefix _)).symm
      have last := inside.inside
      have length := masks.length_eq
      exact
        { verbatim := verbatim_of_masks masks (solid_identOf rest) read
          named := named
          solid := solid_identOf rest
          within := ⟨Nat.le_refl _, Nat.le_refl _, by dsimp only; omega⟩
          place := fun _ _ => rfl
          masks := masks }

theorem suffix_of_cppWord {l : Line} {word : SymKind × Bytes} (found : cppWord l = some word) :
    word.2 <:+ l.sv := by
  have trimmed := ltrim_suffix l.sv
  unfold cppWord at found
  extract_lets t rest w after at found
  have behind : rest <:+ l.sv := by
    show (if (str "typedef").isPrefixOf t then ltrim (t.drop 7) else t) <:+ l.sv
    split
    · exact ltrim_drop_suffix trimmed 7
    · exact trimmed
  have word : after <:+ l.sv := ltrim_drop_suffix behind _
  split at found
  · cases found
  split at found
  · split at found
    · cases found
      exact ltrim_drop_suffix trimmed 7
    · cases found
  split at found
  · split at found
    · obtain ⟨k, -, rfl⟩ := Option.map_eq_some_iff.mp found
      exact ltrim_drop_suffix word k
    · cases found
      exact word
  split at found
  · cases found
    exact ltrim_drop_suffix trimmed 9
  · cases found

theorem suffix_of_goWord {l : Line} {word : SymKind × Bytes} (found : goWord l = some word) :
    word.2 <:+ l.sv := by
  have trimmed := ltrim_suffix l.sv
  unfold goWord at found
  extract_lets t at found
  split at found
  · cases found
  split at found
  · cases found
    exact ltrim_drop_suffix trimmed 4
  split at found
  · cases found
    exact ltrim_drop_suffix trimmed 3
  split at found
  · cases found
    exact ltrim_drop_suffix trimmed 5
  · cases found

/-! ## Where definitions are -/

theorem slice_eq_cons {code : Bytes} {first last : Nat} (order : first < last)
    (inside : first < code.length) :
    slice code first last = byteAt code first :: slice code (first + 1) last := by
  unfold slice byteAt
  rw [List.drop_eq_getElem_cons inside, List.getD_eq_getElem?_getD,
    List.getElem?_eq_getElem inside, Option.getD_some]
  obtain ⟨n, count⟩ : ∃ n, last - first = n + 1 := ⟨last - first - 1, by omega⟩
  rw [count, List.take_succ_cons, show last - (first + 1) = n by omega]

theorem slice_self (code : Bytes) (i : Nat) : slice code i i = [] := by
  unfold slice
  rw [Nat.sub_self, List.take_zero]

theorem length_slice {code : Bytes} {first last : Nat} (inside : last ≤ code.length) :
    (slice code first last).length = last - first := by
  unfold slice
  rw [List.length_take, List.length_drop]
  omega

section Starts

variable {code : Bytes} {low i : Nat}

theorem le_identStart : ∀ {q}, low ≤ q → low ≤ identStart code low q := by
  intro q
  induction q with
  | zero => exact fun bound => bound
  | succ q inductionHypothesis =>
      intro bound
      unfold identStart
      split
      · next more => exact inductionHypothesis (Nat.lt_succ_iff.mp more.1)
      · exact bound

/-- Going back over identifier characters. -/
theorem solid_identStart (inside : i ≤ code.length) : ∀ {q}, q ≤ i → Solid (slice code q i) →
    Solid (slice code (identStart code low q) i) := by
  intro q
  induction q with
  | zero => exact fun _ solid => solid
  | succ q inductionHypothesis =>
      intro bound solid
      unfold identStart
      split
      · next more =>
          refine inductionHypothesis (by omega) ?_
          rw [slice_eq_cons (by omega) (by omega)]
          exact solid.cons more.2
      · exact solid

/-- Going back over pairs of colons and identifiers. -/
theorem solid_qualStart (inside : i ≤ code.length) : ∀ {fuel ns}, ns ≤ i →
    Solid (slice code ns i) → Solid (slice code (qualStart code low fuel ns) i) := by
  intro fuel
  induction fuel with
  | zero => exact fun _ solid => solid
  | succ fuel inductionHypothesis =>
      intro ns bound solid
      unfold qualStart
      split
      · next colons =>
          obtain ⟨two, second, first⟩ := colons
          have pair : Solid (slice code (ns - 2) i) := by
            rw [slice_eq_cons (by omega) (by omega), slice_eq_cons (by omega) (by omega), first,
              show ns - 2 + 1 = ns - 1 by omega, second, show ns - 1 + 1 = ns by omega]
            exact solid.colons
          have start := identStart_le code low (ns - 2)
          exact inductionHypothesis (by omega) (solid_identStart inside (by omega) pair)
      · exact solid

/-- The name does not begin before its line: a newline stands there, not a colon. -/
theorem le_qualStart (begins : low = 0 ∨ byteAt code (low - 1) = newline) : ∀ {fuel ns},
    low ≤ ns → low ≤ qualStart code low fuel ns := by
  have colon : newline ≠ ch ':' := by decide
  intro fuel
  induction fuel with
  | zero => exact fun bound => bound
  | succ fuel inductionHypothesis =>
      intro ns bound
      unfold qualStart
      split
      · next colons =>
          obtain ⟨two, second, first⟩ := colons
          refine inductionHypothesis (le_identStart ?_)
          rcases begins with zero | feed
          · omega
          · by_contra below
            rcases Nat.lt_or_ge low ns with less | same
            · rw [show low - 1 = ns - 2 by omega] at feed
              exact colon (feed.symm.trans first)
            · rw [show low - 1 = ns - 1 by omega] at feed
              exact colon (feed.symm.trans second)
      · exact bound

end Starts

theorem lt_of_balance {opening closing : UInt8} : ∀ {s : Bytes} {depth : Int} {k : Nat},
    balance opening closing depth s = some k → k < s.length := by
  intro s
  induction s with
  | nil => exact fun never => nomatch never
  | cons b rest inductionHypothesis =>
      intro depth k found
      have later {depth : Int}
          (found : (balance opening closing depth rest).map (· + 1) = some k) :
          k < (b :: rest).length := by
        obtain ⟨j, inner, rfl⟩ := Option.map_eq_some_iff.mp found
        exact Nat.succ_lt_succ (inductionHypothesis inner)
      unfold balance at found
      split at found
      · exact later found
      split at found
      · split at found
        · cases found
          exact Nat.succ_pos _
        · exact later found
      · exact later found

theorem matchBrace_bounds {code : Bytes} {start close : Nat}
    (found : matchBrace code start = some close) : start < close ∧ close ≤ code.length := by
  obtain ⟨k, balanced, rfl⟩ := Option.map_eq_some_iff.mp found
  have inside := lt_of_balance balanced
  rw [List.length_drop] at inside
  omega

theorem seen_cppDefAt {src : Bytes} {l : Line} (inside : l.In (maskCommentsAndStrings src))
    {i : Nat} (low : l.off ≤ i) {d : FuncDef}
    (defined : cppDefAt (maskCommentsAndStrings src) l i = some d) :
    Seen src (defSighting (maskCommentsAndStrings src) d) := by
  have named := name_of_cppDefAt defined
  have length := length_mask src
  have masks := masks_mask src
  generalize maskCommentsAndStrings src = code at *
  unfold cppDefAt at defined
  simp only [bind, Option.bind_eq_some_iff, Option.guard_eq_some'] at defined
  obtain ⟨_, ⟨paren, before, -⟩, len, -, k, -, _, brace, close, closes, same⟩ := defined
  cases Option.some.inj same
  have bound : i < code.length := by
    by_contra beyond
    rw [byteAt, List.getD_eq_getElem?_getD, List.getElem?_eq_none (by omega)] at paren
    exact absurd paren (by decide)
  obtain ⟨opens, ends⟩ := matchBrace_bounds closes
  have back := identStart_le code l.off i
  have word : Solid (slice code (identStart code l.off i) i) :=
    solid_identStart (Nat.le_of_lt bound) (Nat.le_refl i) (slice_self code i ▸ solid_nil)
  have above : l.off ≤ identStart code l.off i := le_identStart low
  generalize identStart code l.off i = q at *
  have segments := qualStart_le code l.off q q
  have start := @le_qualStart code l.off inside.begins q q above
  have solid := @solid_qualStart code l.off i (Nat.le_of_lt bound) q q back word
  generalize qualStart code l.off q q = ns at *
  have size := @length_slice code ns i (Nat.le_of_lt bound)
  have stop : ns + (slice code ns i).length = i := by omega
  exact
    { verbatim := verbatim_of_masks masks solid (by dsimp only [defSighting]; rw [stop])
      named := named
      solid := solid
      within := ⟨start, by dsimp only [defSighting]; omega, by dsimp only [defSighting]; omega⟩
      place := fun other _ => absurd rfl other
      masks := masks }

theorem skipGenerics_suffix : ∀ (fuel : Nat) (s : Bytes), skipGenerics fuel s <:+ s := by
  intro fuel
  induction fuel with
  | zero => exact fun s => List.suffix_rfl
  | succ fuel inductionHypothesis =>
      intro s
      cases s with
      | nil => exact List.suffix_rfl
      | cons b rest =>
          unfold skipGenerics
          split
          · exact (inductionHypothesis rest).trans (List.suffix_cons b rest)
          split
          · split
            · next k _ => exact (inductionHypothesis _).trans (List.drop_suffix (k + 1) _)
            · exact List.nil_suffix
          · exact List.suffix_rfl

/-- What is left of a `func` line from the name on. -/
theorem goDefOf_cases {code : Bytes} {l : Line} {d : FuncDef} (defined : goDefOf code l = some d) :
    ∃ rest behind k close, rest <:+ l.sv ∧ behind <:+ rest.drop (identOf rest).length ∧
      matchBrace code (l.fin - behind.length + k) = some close ∧
      d = ⟨l.fin - rest.length, l.off, l.fin - behind.length + k, close, identOf rest⟩ := by
  have head := ltrim_drop_suffix (ltrim_suffix l.sv) 4
  unfold goDefOf at defined
  dsimp only at defined
  split at defined
  all_goals
    simp only [bind, Option.bind_eq_some_iff, Option.guard_eq_some'] at defined
    obtain ⟨rest, from_, -, -, -, -, len, -, k, -, close, closes, same⟩ := defined
    have suffix : rest <:+ l.sv := by
      first
        | obtain ⟨e, -, rfl⟩ := Option.map_eq_some_iff.mp from_
          exact ltrim_drop_suffix head (e + 1)
        | cases from_
          exact head
    exact ⟨rest, _, k, close, suffix, (List.drop_suffix _ _).trans (skipGenerics_suffix _ _),
      closes, (Option.some.inj same).symm⟩

theorem kind_goDefSighting (code : Bytes) (d : FuncDef) :
    (goDefSighting code d).kind = .method ∨ (goDefSighting code d).kind = .function := by
  unfold goDefSighting
  dsimp only
  split
  · exact .inl rfl
  · exact .inr rfl

theorem seen_goDefOf {src : Bytes} {l : Line} (inside : l.In (maskCommentsAndStrings src))
    {d : FuncDef} (defined : goDefOf (maskCommentsAndStrings src) l = some d) :
    Seen src (goDefSighting (maskCommentsAndStrings src) d) := by
  have named := name_of_goDefOf defined
  have length := length_mask src
  have masks := masks_mask src
  generalize maskCommentsAndStrings src = code at *
  obtain ⟨rest, behind, k, close, suffix, later, closes, rfl⟩ := goDefOf_cases defined
  obtain ⟨start, fin, tail, shape⟩ := inside.drop_of_suffix suffix
  obtain ⟨opens, ends⟩ := matchBrace_bounds closes
  have whole : (identOf rest).length ≤ rest.length := (List.takeWhile_prefix _).length_le
  have left := later.length_le
  rw [List.length_drop] at left
  have read : slice code (l.fin - rest.length) (l.fin - rest.length + (identOf rest).length) =
      identOf rest := by
    rw [slice_of_drop shape whole]
    exact (List.prefix_iff_eq_take.mp (List.takeWhile_prefix _)).symm
  refine
    { verbatim := verbatim_of_masks masks (solid_identOf rest) read
      named := named
      solid := solid_identOf rest
      within := ⟨start, by dsimp only [goDefSighting, defSighting]; omega,
        by dsimp only [goDefSighting, defSighting]; omega⟩
      place := fun noFunction noMethod =>
        absurd (kind_goDefSighting code _) (not_or.mpr ⟨noMethod, noFunction⟩)
      masks := masks }

/-- Whether a symbol is exported says nothing about its place. -/
theorem Seen.exported {src : Bytes} {g : Sighting} (seen : Seen src g) : Seen src g.exported := by
  unfold Sighting.exported
  split
  · exact ⟨seen.verbatim, seen.named, seen.solid, seen.within, seen.place, seen.masks⟩
  · exact seen

/-! ## All sightings -/

theorem mem_definitions {found : List Found} {d : FuncDef} :
    d ∈ definitions found ↔ .definition d ∈ found := by
  unfold definitions
  rw [List.mem_filterMap]
  refine ⟨fun ⟨f, member, same⟩ => ?_, fun member => ⟨_, member, rfl⟩⟩
  split at same
  · cases same
    exact member
  · cases same

theorem ofSym_ne_definition (found : Option Sym) (d : FuncDef) :
    Found.ofSym found ≠ .definition d := by
  cases found <;> exact fun never => nomatch never

theorem tryCppDef_of_classifyCpp {code : Bytes} {l : Line} {d : FuncDef}
    (defined : classifyCpp code l = .definition d) : tryCppDef code l = some d := by
  unfold classifyCpp tagOf at defined
  extract_lets t rest w after at defined
  split at defined
  · cases defined
  split at defined
  · split at defined
    · exact absurd defined (ofSym_ne_definition _ d)
    · cases defined
  split at defined
  · split at defined
    · split at defined
      · cases defined
      · exact absurd defined (ofSym_ne_definition _ d)
    · exact absurd defined (ofSym_ne_definition _ d)
  split at defined
  · exact absurd defined (ofSym_ne_definition _ d)
  · split at defined
    · next found =>
        cases defined
        exact found
    · cases defined

theorem goDefOf_of_classifyGo {code : Bytes} {l : Line} {d : FuncDef}
    (defined : classifyGo code l = .definition d) : goDefOf code l = some d := by
  unfold classifyGo at defined
  dsimp only at defined
  split at defined
  · split at defined
    · next found =>
        cases defined
        exact found
    · cases defined
  split at defined
  · exact absurd defined (ofSym_ne_definition _ d)
  split at defined
  · exact absurd defined (ofSym_ne_definition _ d)
  split at defined
  · exact absurd defined (ofSym_ne_definition _ d)
  · cases defined

theorem seen_cppSightings {src : Bytes} {g : Sighting}
    (member : g ∈ cppSightings (maskCommentsAndStrings src)) : Seen src g := by
  rcases List.mem_append.mp member with defined | word
  · obtain ⟨d, there, rfl⟩ := List.mem_map.mp defined
    obtain ⟨l, line, found⟩ := List.mem_map.mp (mem_definitions.mp there)
    have tried := tryCppDef_of_classifyCpp found
    unfold tryCppDef at tried
    split at tried
    · cases tried
    · obtain ⟨i, place, at_⟩ := List.exists_of_findSome?_eq_some tried
      exact seen_cppDefAt (in_of_mem_linesOf line) (List.mem_range'_1.mp place).1 at_
  · obtain ⟨l, line, found⟩ := List.mem_filterMap.mp word
    obtain ⟨⟨kind, rest⟩, known, seen⟩ := Option.bind_eq_some_iff.mp found
    exact seen_wordSighting (masks_mask src) (in_of_mem_linesOf line) (suffix_of_cppWord known) seen

theorem seen_goSightings {src : Bytes} {g : Sighting} (member : g ∈ goSightings src) :
    Seen src g := by
  rcases List.mem_append.mp member with first | word
  · rcases List.mem_append.mp first with package | defined
    · obtain ⟨l, line, found⟩ := List.mem_filterMap.mp package
      unfold packageSighting at found
      dsimp only at found
      split at found
      · exact seen_wordSighting (List.forall₂_same.mpr fun b _ => .refl b)
          (in_of_mem_linesOf line) (ltrim_drop_suffix (ltrim_suffix _) 7) found
      · cases found
    · obtain ⟨d, there, rfl⟩ := List.mem_map.mp defined
      obtain ⟨l, line, found⟩ := List.mem_map.mp (mem_definitions.mp there)
      exact seen_goDefOf (in_of_mem_linesOf line) (goDefOf_of_classifyGo found)
  · obtain ⟨l, line, found⟩ := List.mem_filterMap.mp word
    obtain ⟨⟨kind, rest⟩, known, seen⟩ := Option.bind_eq_some_iff.mp found
    obtain ⟨g', seen', rfl⟩ := Option.map_eq_some_iff.mp seen
    exact (seen_wordSighting (masks_mask src) (in_of_mem_linesOf line) (suffix_of_goWord known)
      seen').exported

/-- What an extractor sees is where it says. -/
theorem seen_sightings {lang : Lang} {src : Bytes} {g : Sighting}
    (member : g ∈ sightings lang src) : Seen src g := by
  cases lang with
  | unknown => exact absurd member List.not_mem_nil
  | c | cpp => exact seen_cppSightings member
  | go => exact seen_goSightings member

/-! ## Globals -/

theorem isBlank_of_ident_behind {s : Bytes} (behind : s.head?.all fun b => !isIdentChar b)
    (word : identOf (ltrim s) ≠ []) : ∃ b rest, s = b :: rest ∧ isBlank b = true := by
  cases s with
  | nil => exact absurd rfl word
  | cons b rest =>
      refine ⟨b, rest, rfl, ?_⟩
      by_contra solid
      have trimmed : ltrim (b :: rest) = b :: rest :=
        List.dropWhile_cons_of_neg solid
      rw [trimmed] at word
      refine word (List.takeWhile_cons_of_neg ?_)
      simpa using behind

theorem head_behind_identOf (s : Bytes) :
    (s.drop (identOf s).length).head?.all fun b => !isIdentChar b := by
  have rest : s.drop (identOf s).length = s.dropWhile isIdentChar := by
    have parts := congrArg (List.drop (identOf s).length)
      (List.takeWhile_append_dropWhile (p := isIdentChar) (l := s))
    rw [identOf, List.drop_left] at parts
    exact parts.symm
  rw [rest]
  cases shape : s.dropWhile isIdentChar with
  | nil => rfl
  | cons b others =>
      have stop := List.head_dropWhile_not isIdentChar (l := s) (by rw [shape]; simp)
      simp only [shape, List.head_cons] at stop
      simp [stop]

/-- The name of a global begins with a blank. -/
theorem globalOf_blank {code : Bytes} {defs : List FuncDef} {l : Line} {s : Sym}
    (global : globalOf code defs l = some s) : isName s.name = false := by
  have named := (hasName_globalOf global).1
  unfold globalOf at global
  simp only [bind, Option.bind_eq_some_iff, Option.guard_eq_some'] at global
  obtain ⟨_, _, _, _, _, _, _, word, _, _, _, _, same⟩ := global
  cases Option.some.inj same
  have solid : ∀ b : UInt8, isBlank b = true → ∀ (declarator : Bytes) (n : Nat),
      declarator.head? = some b → declarator.take n ≠ [] → isName (declarator.take n) = false := by
    intro b white declarator n head nonempty
    cases declarator with
    | nil => cases head
    | cons c rest =>
        cases head
        cases n with
        | zero => exact absurd rfl nonempty
        | succ n => exact not_isName_of_blank white _
  have behind : ∀ declarator : Bytes, (declarator.head?.all fun b => !isIdentChar b) →
      identOf (ltrim declarator) ≠ [] → ∀ n, declarator.take n ≠ [] →
      isName (declarator.take n) = false := by
    intro declarator stop word n nonempty
    obtain ⟨b, rest, shape, white⟩ := isBlank_of_ident_behind stop word
    exact solid b white declarator n (by rw [shape]; rfl) nonempty
  refine behind _ ?_ word _ named
  split
  · exact head_behind_identOf _
  · exact head_behind_identOf _

end Opencodepp.Graph
