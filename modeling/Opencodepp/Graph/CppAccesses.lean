import Mathlib.Data.List.DropRight
import Opencodepp.Graph.Accesses

/-!
# The accesses of the extractor of C and C++

The scanner for C and C++ with every access checked.  It comes to what the extractor finds, or it
stops where the search behind `enum class` has found nothing and what is left of the line is taken
from there all the same (`extractCpp_eq`).
-/

set_option autoImplicit false

namespace Opencodepp.Graph.Scan

open Opencodepp.Core
open Opencodepp.Library
open Opencodepp.Library.Checked

def includeOf (file : Bytes) (l : Line) : Checked (Option Dep) := do
  let t ← ltrim l.sv
  if ¬(str "#include").isPrefixOf t then .ok none
  else
    let p ← pass isBlank t 8
    if p = t.length then .ok none
    else
      let opening ← item t p
      if opening ≠ ch '<' ∧ opening ≠ ch '"' then .ok none
      else
        let close := if opening = ch '<' then ch '>' else ch '"'
        match ← find (· = close) t (t.length - (p + 1)) (p + 1) with
        | none => .ok none
        | some e =>
            let target ← part t (p + 1) (e - p - 1)
            .ok (some (includeDep file target))

theorem includeOf_eq (file : Bytes) (l : Line) :
    includeOf file l = .ok (Graph.includeOf file l) := by
  rw [includeOf, bind_of_ok (ltrim_eq l.sv), Graph.includeOf]
  generalize Graph.ltrim l.sv = t
  by_cases directive : (str "#include").isPrefixOf t = true
  · obtain ⟨p, passed, -, inside, -, left⟩ :=
      pass_spec isBlank (length_of_isPrefixOf directive (show _ = 8 by decide))
    have rest : Graph.ltrim (t.drop 8) = t.drop p := left.symm
    rw [if_neg (not_not_intro directive), bind_of_ok passed]
    simp only [directive, rest, guard, if_true]
    rcases Nat.lt_or_eq_of_le inside with more | rfl
    · rw [if_neg (Nat.ne_of_lt more), List.drop_eq_getElem_cons more,
        bind_of_ok (item_of_drop (List.drop_eq_getElem_cons more))]
      simp only [List.head?_cons, Option.bind_eq_bind, Option.bind_some, List.drop_succ_cons,
        List.drop_zero, pure]
      by_cases quote : t[p] = ch '<' ∨ t[p] = ch '"'
      · rw [if_neg fun neither => quote.elim neither.1 neither.2, find_rest _ more, ok_bind,
          if_pos quote, Option.bind_some]
        cases (t.drop (p + 1)).findIdx? _ with
        | none => rfl
        | some k =>
            have far : p + 1 + k - p - 1 = k := by omega
            simp only [Option.map_some, Nat.succ_eq_add_one, far, part_of_le more, ok_bind,
              Option.bind_some]
      · rw [if_pos (not_or.mp quote), if_neg quote]
        rfl
    · rw [if_pos rfl, List.drop_length]
      rfl
  · rw [if_pos directive]
    simp [directive, guard]

def qualStart (code : Bytes) (low : Nat) : Nat → Nat → Checked Nat
  | 0, ns => .ok ns
  | fuel + 1, ns =>
      if 2 ≤ ns then do
        let last ← item code (ns - 1)
        let before ← item code (ns - 2)
        if last = ch ':' ∧ before = ch ':' then
          let ns ← identStart code low (ns - 2)
          qualStart code low fuel ns
        else .ok ns
      else .ok ns

theorem qualStart_eq {code : Bytes} (low : Nat) : ∀ (fuel : Nat) {ns : Nat}, ns ≤ code.length →
    qualStart code low fuel ns = .ok (Graph.qualStart code low fuel ns) := by
  intro fuel
  induction fuel with
  | zero => exact fun _ => rfl
  | succ fuel inductionHypothesis =>
      intro ns inside
      unfold qualStart Graph.qualStart
      by_cases two : 2 ≤ ns
      · rw [if_pos two, bind_of_ok (item_byteAt (by omega)), bind_of_ok (item_byteAt (by omega))]
        by_cases colons : byteAt code (ns - 1) = ch ':' ∧ byteAt code (ns - 2) = ch ':'
        · have back := identStart_le code low (ns - 2)
          rw [if_pos colons, if_pos ⟨two, colons⟩, bind_of_ok (identStart_eq low (by omega))]
          exact inductionHypothesis (by omega)
        · rw [if_neg colons, if_neg fun both => colons both.2]
      · rw [if_neg two, if_neg fun both => two both.1]

def cppDefAt (code : Bytes) (l : Line) (i : Nat) : Checked (Option FuncDef) := do
  let b ← item code i
  if b ≠ ch '(' then .ok none
  else
    let q ← identStart code l.off i
    if q = i then .ok none
    else
      let tok ← between code q i
      if tok ∈ kCKeywords then .ok none
      else
        match ← closeFrom (ch '(') (ch ')') code (l.fin - i) i 0 with
        | none => .ok none
        | some j =>
            match ← find (fun b => b = ch '{' || b = ch ';') code (l.fin - (j + 1)) (j + 1) with
            | none => .ok none
            | some k =>
                let b ← item code k
                if b ≠ ch '{' then .ok none
                else
                  match ← matchBrace code k with
                  | none => .ok none
                  | some close =>
                      let ns ← qualStart code l.off q q
                      let name ← between code ns i
                      .ok (some ⟨ns, l.off, k, close, name⟩)

/-- A place that was looked for in a part of a text is in that part. -/
theorem lt_of_findIdx? {p : UInt8 → Bool} {code : Bytes} {first last k : Nat}
    (found : (slice code first last).findIdx? p = some k) : first + k < last := by
  have less := (List.findIdx?_eq_some_iff_findIdx_eq.mp found).1
  rw [slice, List.length_take] at less
  omega

theorem cppDefAt_eq {code : Bytes} {l : Line} (inside : l.In code) {i : Nat} (before : i < l.fin) :
    cppDefAt code l i = .ok (Graph.cppDefAt code l i) := by
  have fits := inside.inside
  have place : i < code.length := by omega
  rw [cppDefAt, bind_of_ok (item_byteAt place), Graph.cppDefAt]
  by_cases paren : byteAt code i = ch '('
  swap
  · rw [if_pos paren]
    simp [paren, guard]
  rw [if_neg (not_not_intro paren), bind_of_ok (identStart_eq l.off place.le)]
  by_cases bare : Graph.identStart code l.off i = i
  · rw [if_pos bare]
    simp [bare, guard]
  rw [if_neg bare, bind_of_ok (between_identStart l.off place.le)]
  by_cases keyword : slice code (Graph.identStart code l.off i) i ∈ kCKeywords
  · rw [if_pos keyword]
    simp [keyword, guard]
  have opens : guard (byteAt code i = ch '(' ∧ Graph.identStart code l.off i ≠ i ∧
      slice code (Graph.identStart code l.off i) i ∉ kCKeywords) = some () :=
    if_pos ⟨paren, bare, keyword⟩
  rw [if_neg keyword, bind_of_ok (closeFrom_eq _ _ _ i 0 (by omega)), ← slice]
  simp only [opens, Option.bind_eq_bind, Option.bind_some]
  cases closes : balance (ch '(') (ch ')') 0 (slice code i l.fin) with
  | none => rfl
  | some len =>
  have parens := lt_of_balance closes
  rw [slice, List.length_take] at parens
  simp only [Option.map_some, Option.bind_some]
  rw [bind_of_ok (find_eq _ _ (i + len + 1) (by omega)), ← slice]
  cases found : (slice code (i + len + 1) l.fin).findIdx? fun b => b = ch '{' || b = ch ';' with
  | none => rfl
  | some k =>
  have within := lt_of_findIdx? found
  simp only [Option.map_some, Option.bind_some]
  rw [bind_of_ok (item_byteAt (by omega))]
  by_cases brace : byteAt code (i + len + 1 + k) = ch '{'
  swap
  · rw [if_pos brace]
    simp [brace, guard]
  rw [if_neg (not_not_intro brace), bind_of_ok (matchBrace_eq (by omega)), guard, if_pos brace]
  cases Graph.matchBrace code (i + len + 1 + k) with
  | none => rfl
  | some close =>
  have back := identStart_le code l.off i
  have segments := qualStart_le code l.off (Graph.identStart code l.off i)
    (Graph.identStart code l.off i)
  simp only [qualStart_eq l.off _ (back.trans place.le), ok_bind,
    between_of_le (segments.trans back) place.le]
  rfl

def tryCppDef (code : Bytes) (l : Line) : Checked (Option FuncDef) := do
  let t ← ltrim l.sv
  if t = [] then .ok none
  else if ← starts (fun b => b = ch '#' || b = ch '}' || b = ch '{') t then .ok none
  else first (cppDefAt code l) (List.range' l.off (l.fin - l.off))

theorem tryCppDef_eq {code : Bytes} {l : Line} (inside : l.In code) :
    tryCppDef code l = .ok (Graph.tryCppDef code l) := by
  have each : ∀ i ∈ List.range' l.off (l.fin - l.off),
      cppDefAt code l i = .ok (Graph.cppDefAt code l i) := fun i member =>
    cppDefAt_eq inside (lt_of_mem_range inside member).2.1
  rw [tryCppDef, bind_of_ok (ltrim_eq l.sv), Graph.tryCppDef, starts_eq, first_eq each]
  cases Graph.ltrim l.sv with
  | nil => rfl
  | cons b rest =>
      rw [if_neg (List.cons_ne_nil b rest), ok_bind, List.head?_cons, Option.any_some,
        Option.all_some]
      cases b = ch '#' || b = ch '}' || b = ch '{' <;> rfl

def macroOf (code : Bytes) (l : Line) (t : Bytes) : Checked (Option Sym) := do
  let p ← pass isBlank t 7
  if p = t.length then .ok none
  else
    let b ← item t p
    if isIdentChar b then
      let e ← pass isIdentChar t p
      let name ← part t p (e - p)
      let s ← nameSym .macro_ name code (textBase l t + p)
      .ok (some s)
    else .ok none

theorem macroOf_eq {code : Bytes} {l : Line} (inside : l.In code) {t : Bytes} (text : t <:+ l.sv)
    (long : 7 ≤ t.length) :
    macroOf code l t = .ok (Graph.wordSym .macro_ code l (Graph.ltrim (t.drop 7))) := by
  obtain ⟨p, passed, -, fits, -, left⟩ := pass_spec isBlank long
  have rest : Graph.ltrim (t.drop 7) = t.drop p := left.symm
  rw [macroOf, bind_of_ok passed, rest, Graph.wordSym]
  rcases Nat.lt_or_eq_of_le fits with more | rfl
  swap
  · rw [if_pos rfl, List.drop_length]
    rfl
  obtain ⟨e, word, -, -, name, -⟩ := pass_spec isIdentChar fits
  have first : (t.drop p).head?.any isIdentChar = isIdentChar t[p] := by
    rw [List.drop_eq_getElem_cons more]
    rfl
  rw [if_neg (Nat.ne_of_lt more), bind_of_ok (item_of_drop (List.drop_eq_getElem_cons more)),
    ← first]
  by_cases named : identOf (t.drop p) = []
  · rw [if_neg ((any_identChar _).not.mpr (not_not_intro named)), if_pos named]
  · rw [if_pos ((any_identChar _).mpr named), if_neg named, bind_of_ok word,
      bind_of_ok (part_of_le fits _), name, bind_of_ok (nameSym_eq ..),
      textBase_add inside text fits]
    rfl

/-- What a line turns out to be, or the access that ends the process. -/
def checkedFound : Found → Checked Found
  | .throws => .error .start
  | found => .ok found

theorem checkedFound_ofSym (s : Option Sym) : checkedFound (.ofSym s) = .ok (.ofSym s) := by
  cases s <;> rfl

def tagOf (code : Bytes) (l : Line) (t w after : Bytes) : Checked (Option Sym) := do
  let name ← wordOf after
  if w = str "enum" ∧ name = str "class" then
    let place ← find isBlank after after.length 0
    let behindClass ← suffixFrom after place
    let after ← ltrim behindClass
    wordSym (tagKind w) code l t after
  else wordSym (tagKind w) code l t after

theorem tagOf_eq {code : Bytes} {l : Line} (inside : l.In code) {t after : Bytes}
    (text : t <:+ l.sv) (left : after <:+ t) (w : Bytes) : (do
      let s ← tagOf code l t w after
      .ok (.ofSym s)) = checkedFound (Graph.tagOf code l w after) := by
  rw [tagOf, Graph.tagOf, bind_of_ok (wordOf_eq after)]
  by_cases enumClass : w = str "enum" ∧ identOf after = str "class"
  · rw [if_pos enumClass, if_pos enumClass, bind_of_ok (find_whole isBlank after)]
    cases found : after.findIdx? isBlank with
    | none => rfl
    | some k =>
        have less := (List.findIdx?_eq_some_iff_findIdx_eq.mp found).1
        rw [suffixFrom, bind_of_ok (suffix_of_le less.le), bind_of_ok (ltrim_eq _),
          bind_of_ok (wordSym_eq inside text (ltrim_drop_suffix left k) (tagKind w)),
          checkedFound_ofSym]
  · rw [if_neg enumClass, if_neg enumClass, bind_of_ok (wordSym_eq inside text left (tagKind w)),
      checkedFound_ofSym]

/-- A line without the keyword of a type definition. -/
def untyped (t : Bytes) : Bytes :=
  if (str "typedef").isPrefixOf t then Graph.ltrim (t.drop 7) else t

def typedefOf (t : Bytes) : Checked Bytes :=
  if (str "typedef").isPrefixOf t then behind t 7 else .ok t

theorem typedefOf_eq (t : Bytes) : typedefOf t = .ok (untyped t) := by
  unfold typedefOf untyped
  split
  · next named => exact behind_eq (length_of_isPrefixOf named (show _ = 7 by decide))
  · rfl

theorem untyped_suffix (t : Bytes) : untyped t <:+ t := by
  unfold untyped
  split
  · exact ltrim_drop_suffix List.suffix_rfl 7
  · exact List.suffix_rfl

def classifyCpp (code : Bytes) (l : Line) : Checked Found := do
  let t ← ltrim l.sv
  if t = [] then .ok .nothing
  else if ← starts (· = ch '#') t then
    if (str "#define").isPrefixOf t then
      let s ← macroOf code l t
      .ok (.ofSym s)
    else .ok .nothing
  else
    let rest ← typedefOf t
    let w ← word rest
    if w ∈ ["struct", "class", "enum", "union"].map str then
      let after ← behind rest w.length
      let s ← tagOf code l t w after
      .ok (.ofSym s)
    else if (str "namespace").isPrefixOf t then
      let rest ← behind t 9
      let s ← wordSym .namespace_ code l t rest
      .ok (.ofSym s)
    else
      match ← tryCppDef code l with
      | some d => .ok (.definition d)
      | none => .ok .nothing

theorem classifyCpp_eq {code : Bytes} {l : Line} (inside : l.In code) :
    classifyCpp code l = checkedFound (Graph.classifyCpp code l) := by
  have text : Graph.ltrim l.sv <:+ l.sv := List.dropWhile_suffix isBlank
  rw [classifyCpp, bind_of_ok (ltrim_eq l.sv), Graph.classifyCpp]
  generalize Graph.ltrim l.sv = t at *
  by_cases empty : t = []
  · rw [if_pos empty, if_pos empty]
    rfl
  rw [if_neg empty, if_neg empty, starts_eq, ok_bind]
  by_cases directive : t.head? = some (ch '#')
  · rw [if_pos ((any_head t _).mpr directive), if_pos directive]
    split
    · next named =>
      rw [macroOf_eq inside text (length_of_isPrefixOf named (by decide)), ok_bind,
        checkedFound_ofSym]
    · rfl
  rw [if_neg ((any_head t _).not.mpr directive), if_neg directive, typedefOf_eq, ok_bind]
  have left := untyped_suffix t
  dsimp only
  rw [← untyped]
  generalize untyped t = rest at *
  have within : (identOf rest).length ≤ rest.length := (List.takeWhile_sublist _).length_le
  rw [word_eq, ok_bind]
  split
  · rw [behind_eq within, ok_bind]
    exact tagOf_eq inside text (ltrim_drop_suffix left _) _
  split
  · next named =>
    rw [behind_eq (length_of_isPrefixOf named (by decide)), ok_bind,
      wordSym_eq inside text (ltrim_drop_suffix List.suffix_rfl 9), ok_bind, checkedFound_ofSym]
  · rw [tryCppDef_eq inside, ok_bind]
    cases Graph.tryCppDef code l <;> rfl

/-- Pass blanks and an identifier, which has to be there. -/
def skipWord (t : Bytes) (p : Nat) : Checked (Option Nat) := do
  let p ← pass isBlank t p
  if p = t.length then .ok none
  else
    let b ← item t p
    if isIdentChar b then
      let q ← pass isIdentChar t p
      .ok (some q)
    else .ok none

theorem skipWord_spec {t : Bytes} {p : Nat} (fits : p ≤ t.length) {rest : Bytes}
    (left : Graph.ltrim (t.drop p) = rest) :
    identOf rest = [] ∧ skipWord t p = .ok none ∨
      identOf rest ≠ [] ∧ ∃ q, skipWord t p = .ok (some q) ∧ p ≤ q ∧ q ≤ t.length ∧
        t.drop q = rest.drop (identOf rest).length := by
  obtain ⟨start, passed, order, within, -, same⟩ := pass_spec isBlank fits
  have begins : t.drop start = rest := same.trans left
  rw [skipWord, bind_of_ok passed]
  rcases Nat.lt_or_eq_of_le within with more | rfl
  swap
  · rw [List.drop_length] at begins
    exact .inl ⟨by rw [← begins]; rfl, if_pos rfl⟩
  obtain ⟨q, word, further, inside, -, behindWord⟩ := pass_spec isIdentChar within
  have first : rest.head?.any isIdentChar = isIdentChar t[start] := by
    rw [← begins, List.drop_eq_getElem_cons more]
    rfl
  rw [if_neg (Nat.ne_of_lt more), bind_of_ok (item_of_drop (List.drop_eq_getElem_cons more)),
    ← first]
  by_cases named : identOf rest = []
  · exact .inl ⟨named, if_neg ((any_identChar _).not.mpr (not_not_intro named))⟩
  · refine .inr ⟨named, q, ?_, order.trans further, inside, ?_⟩
    · rw [if_pos ((any_identChar _).mpr named), bind_of_ok word]
    · rw [behindWord, begins]
      exact (drop_length_takeWhile isIdentChar rest).symm

/-- The name of a global, when the type before it ends at a position. -/
def declaratorOf (code : Bytes) (l : Line) (t : Bytes) (nameStart : Nat) :
    Checked (Option Sym) := do
  match ← skipWord t nameStart with
  | none => .ok none
  | some nameEnd =>
      let p ← pass isBlank t nameEnd
      if p = t.length then .ok none
      else
        let next ← item t p
        if next ≠ ch '=' ∧ next ≠ ch ';' ∧ next ≠ ch '[' then .ok none
        else
          let name ← part t nameStart (nameEnd - nameStart)
          let s ← nameSym .global name code (textBase l t + nameStart)
          .ok (some s)

/-- The global that is declared by what is left of a line. -/
def declared (code : Bytes) (l : Line) (declarator : Bytes) : Option Sym := do
  let word := identOf (Graph.ltrim declarator)
  guard (word ≠ [])
  let rest := (Graph.ltrim declarator).drop word.length
  let next ← (Graph.ltrim rest).head?
  guard (next = ch '=' ∨ next = ch ';' ∨ next = ch '[')
  pure (Graph.nameSym .global (declarator.take (declarator.length - rest.length)) code
    (l.fin - declarator.length))

theorem globalOf_declared (code : Bytes) (defs : List FuncDef) (l : Line) :
    Graph.globalOf code defs l = (do
      let t := Graph.ltrim l.sv
      guard ((insideDef defs l.off).isNone ∧ t.head? ≠ some (ch '#') ∧ t.head? ≠ some (ch '}'))
      let w0 := identOf t
      guard (w0 ≠ [])
      let left := t.drop w0.length
      let qualified := w0 ∈ ["static", "const", "constexpr", "extern", "volatile"].map str
      guard (qualified → identOf (Graph.ltrim left) ≠ [])
      declared code l (if qualified then
        (Graph.ltrim left).drop (identOf (Graph.ltrim left)).length else left)) := rfl

theorem declaratorOf_eq {code : Bytes} {l : Line} (inside : l.In code) {t : Bytes}
    (text : t <:+ l.sv) {nameStart : Nat} (fits : nameStart ≤ t.length) :
    declaratorOf code l t nameStart = .ok (declared code l (t.drop nameStart)) := by
  rw [declaratorOf, declared]
  rcases skipWord_spec fits rfl with
    ⟨bare, skipped⟩ | ⟨named, nameEnd, skipped, order, within, left⟩
  · rw [bind_of_ok skipped]
    simp [bare, guard]
  rw [bind_of_ok skipped]
  simp only [← left, guard, if_pos named]
  obtain ⟨p, passed, -, ends, -, same⟩ := pass_spec isBlank within
  have rest : Graph.ltrim (t.drop nameEnd) = t.drop p := same.symm
  rw [bind_of_ok passed, rest]
  rcases Nat.lt_or_eq_of_le ends with more | rfl
  swap
  · rw [if_pos rfl, List.drop_length]
    rfl
  rw [if_neg (Nat.ne_of_lt more), bind_of_ok (item_of_drop (List.drop_eq_getElem_cons more)),
    List.drop_eq_getElem_cons more]
  simp only [List.head?_cons, Option.bind_eq_bind, Option.bind_some, pure]
  by_cases declares : t[p] = ch '=' ∨ t[p] = ch ';' ∨ t[p] = ch '['
  · have size : (t.drop nameStart).length - (t.drop nameEnd).length = nameEnd - nameStart := by
      rw [List.length_drop, List.length_drop]
      omega
    rw [if_neg (by tauto), if_pos declares, Option.bind_some, bind_of_ok (part_of_le fits _),
      bind_of_ok (nameSym_eq ..), textBase_add inside text fits, size]
  · rw [if_pos (by tauto), if_neg declares]
    rfl

def globalOf (code : Bytes) (defs : List FuncDef) (l : Line) : Checked (Option Sym) := do
  let t ← ltrim l.sv
  if (insideDef defs l.off).isSome then .ok none
  else if t = [] then .ok none
  else if ← starts (fun b => b = ch '#' || b = ch '}') t then .ok none
  else
    match ← skipWord t 0 with
    | none => .ok none
    | some p =>
        let w0 ← part t 0 p
        if w0 ∈ ["static", "const", "constexpr", "extern", "volatile"].map str then
          match ← skipWord t p with
          | none => .ok none
          | some p => declaratorOf code l t p
        else declaratorOf code l t p

def extractCpp (file src : Bytes) : Checked Extraction := do
  let lines ← linesOf src
  let includes ← lines.mapM (includeOf file)
  let code ← maskCommentsAndStrings src
  let lines ← linesOf code
  let found ← lines.mapM (classifyCpp code)
  let defs := definitions found
  let defSyms ← defs.mapM (defSym code)
  let globals ← lines.mapM (globalOf code defs)
  let sites ← callSites kCKeywords code defs
  .ok (.found (defSyms ++ extras found ++ globals.filterMap id)
    (includes.filterMap id ++ sites.map (callDep file 0 defs)))

theorem globalOf_eq {code : Bytes} (defs : List FuncDef) {l : Line} (inside : l.In code) :
    globalOf code defs l = .ok (Graph.globalOf code defs l) := by
  have text : Graph.ltrim l.sv <:+ l.sv := List.dropWhile_suffix isBlank
  have trimmed : Graph.ltrim (Graph.ltrim l.sv) = Graph.ltrim l.sv :=
    List.dropWhile_idempotent isBlank _
  rw [globalOf, bind_of_ok (ltrim_eq l.sv), globalOf_declared]
  generalize Graph.ltrim l.sv = t at *
  cases outside : insideDef defs l.off with
  | some d => simp [guard]
  | none =>
  by_cases empty : t = []
  · subst empty
    simp [guard, identOf]
  have other : t.head?.any (fun b => b = ch '#' || b = ch '}') = true ↔
      ¬(t.head? ≠ some (ch '#') ∧ t.head? ≠ some (ch '}')) := by
    cases t <;> simp
    tauto
  rw [Option.isSome_none, if_neg Bool.false_ne_true, if_neg empty, starts_eq, ok_bind]
  by_cases plain : t.head? ≠ some (ch '#') ∧ t.head? ≠ some (ch '}')
  swap
  · rw [if_pos (other.mpr plain)]
    simp only [guard, Option.isNone_none, true_and, if_neg plain]
    rfl
  rw [if_neg (other.not.mpr (not_not_intro plain))]
  simp only [guard, Option.isNone_none, true_and, if_pos plain]
  rcases skipWord_spec (Nat.zero_le t.length) trimmed with
    ⟨bare, skipped⟩ | ⟨named, p, skipped, -, fits, left⟩
  · rw [bind_of_ok skipped]
    simp [bare]
  have length : p = (identOf t).length := by
    have shorter : (identOf t).length ≤ t.length := (List.takeWhile_sublist _).length_le
    have same := congrArg List.length left
    rw [List.length_drop, List.length_drop] at same
    omega
  have w0 : part t 0 p = .ok (identOf t) := by
    rw [part_of_le (Nat.zero_le _), List.drop_zero, length]
    exact congrArg Except.ok (take_length_takeWhile isIdentChar t)
  rw [bind_of_ok skipped, ← left]
  dsimp only
  rw [bind_of_ok w0, if_pos named]
  by_cases qualified : identOf t ∈ ["static", "const", "constexpr", "extern", "volatile"].map str
  · rw [if_pos qualified, if_pos qualified]
    rcases skipWord_spec fits rfl with ⟨bare, type⟩ | ⟨word, q, type, -, within, behindType⟩
    · rw [bind_of_ok type, if_neg fun both => both qualified bare]
      rfl
    · rw [bind_of_ok type, if_pos fun _ => word, ← behindType]
      exact declaratorOf_eq inside text within
  · rw [if_neg qualified, if_neg qualified, if_pos fun both => absurd both qualified]
    exact declaratorOf_eq inside text fits

/-- What an extractor finds, or the access that ends the process. -/
def checkedExtraction : Extraction → Checked Extraction
  | .terminated => .error .start
  | extraction => .ok extraction

theorem extractCpp_eq (file src : Bytes) :
    extractCpp file src = checkedExtraction (Graph.extractCpp file src) := by
  have lines {l : Line} (member : l ∈ Graph.linesOf (Graph.maskCommentsAndStrings src)) :=
    in_of_mem_linesOf member
  rw [extractCpp, bind_of_ok (linesOf_eq src), bind_of_ok (mapM_eq fun l _ => includeOf_eq file l),
    bind_of_ok (maskCommentsAndStrings_eq src), bind_of_ok (linesOf_eq _), Graph.extractCpp]
  generalize Graph.maskCommentsAndStrings src = code at *
  dsimp only
  by_cases throws : .throws ∈ foundCpp code
  · obtain ⟨l, member, found⟩ := List.mem_map.mp throws
    have stops : (Graph.linesOf code).mapM (classifyCpp code) = .error .start := by
      refine mapM_error (g := Graph.classifyCpp code) (fun l member => ?_) ⟨l, member, ?_⟩
      · rw [classifyCpp_eq (lines member)]
        cases Graph.classifyCpp code l
        case throws => exact .inr rfl
        all_goals exact .inl rfl
      · rw [classifyCpp_eq (lines member), found]
        rfl
    rw [stops, if_pos throws]
    rfl
  -- no line throws, and each is what the extractor finds it to be
  · have classified : (Graph.linesOf code).mapM (classifyCpp code) = .ok (foundCpp code) := by
      refine mapM_eq fun l member => ?_
      rw [classifyCpp_eq (lines member)]
      cases found : Graph.classifyCpp code l
      case throws => exact absurd (List.mem_map.mpr ⟨l, member, found⟩) throws
      all_goals rfl
    rw [bind_of_ok classified, if_neg throws,
      bind_of_ok (mapM_eq fun d _ => defSym_eq code d),
      bind_of_ok (mapM_eq fun l member => globalOf_eq _ (lines member)),
      bind_of_ok (callSites_eq ..)]
    simp only [List.filterMap_map, Function.id_comp]
    rfl

end Opencodepp.Graph.Scan
