import Opencodepp.Graph.Accesses

/-!
# The accesses of the extractor of Go

The scanner for Go with every access checked.  None of them strays (`extractGo_eq`).
-/

set_option autoImplicit false

namespace Opencodepp.Graph.Scan

open Opencodepp.Core
open Opencodepp.Library
open Opencodepp.Library.Checked

def packageOf (src : Bytes) (l : Line) : Checked (Option Sym) := do
  let t ← ltrim l.sv
  if (str "package").isPrefixOf t then
    let rest ← behind t 7
    wordSym .package src l t rest
  else .ok none

theorem packageOf_eq {src : Bytes} {l : Line} (inside : l.In src) :
    packageOf src l = .ok (Graph.packageOf src l) := by
  rw [packageOf, bind_of_ok (ltrim_eq l.sv), Graph.packageOf]
  split
  · next named =>
    rw [bind_of_ok (behind_eq (length_of_isPrefixOf named (by decide)))]
    exact wordSym_eq inside (ltrim_suffix l.sv) (ltrim_drop_suffix List.suffix_rfl 7) .package
  · rfl

def importOf (file line : Bytes) : Checked (Option Dep) := do
  let line ← ltrim line
  match ← find (· = ch '"') line line.length 0 with
  | none => .ok none
  | some q =>
      match ← find (· = ch '"') line (line.length - (q + 1)) (q + 1) with
      | none => .ok none
      | some close =>
          let target ← part line (q + 1) (close - q - 1)
          .ok (some (includeDep file target))

theorem importOf_eq (file line : Bytes) :
    importOf file line = .ok (Graph.importOf file line) := by
  rw [importOf, bind_of_ok (ltrim_eq line), Graph.importOf, bind_of_ok (find_whole _ _)]
  generalize Graph.ltrim line = line
  cases found : line.findIdx? (· = ch '"') with
  | none => rfl
  | some q =>
  have less := (List.findIdx?_eq_some_iff_findIdx_eq.mp found).1
  simp only [Option.bind_eq_bind, Option.bind_some]
  rw [bind_of_ok (find_rest _ less)]
  cases (line.drop (q + 1)).findIdx? (· = ch '"') with
  | none => rfl
  | some k =>
      have far : q + 1 + k - q - 1 = k := by omega
      simp only [Option.map_some, Nat.succ_eq_add_one, far, part_of_le less, ok_bind,
        Option.bind_some]
      rfl

/-- The imports of a block from a position on, up to the line that closes it. -/
def blockFrom (file src : Bytes) : Nat → Nat → Checked (List Dep)
  | 0, _ => .ok []
  | fuel + 1, pos =>
      if src.length < pos then .ok []
      else do
        let nl ← find (· = newline) src (src.length - pos) pos
        let line ← between src pos (nl.getD src.length)
        let trimmed ← ltrim line
        if ← starts (· = ch ')') trimmed then .ok []
        else
          let dep ← importOf file line
          match nl with
          | none => .ok dep.toList
          | some nl =>
              let rest ← blockFrom file src fuel (nl + 1)
              .ok (dep.toList ++ rest)

/-- A text up to its first newline, which stands at `k`. -/
theorem splitOn_of_findIdx? {s : Bytes} {k : Nat} (found : s.findIdx? (· = newline) = some k) :
    s.splitOn newline = s.take k :: (s.drop (k + 1)).splitOn newline := by
  obtain ⟨less, feed, before⟩ := List.findIdx?_eq_some_iff_getElem.mp found
  have plain : newline ∉ s.take k := by
    intro member
    obtain ⟨j, inside, same⟩ := List.mem_take_iff_getElem.mp member
    exact before j (by omega) (decide_eq_true same)
  calc s.splitOn newline
      = (s.take k ++ newline :: s.drop (k + 1)).splitOn newline := by
        rw [← of_decide_eq_true feed, List.getElem_cons_drop, List.take_append_drop]
    _ = s.take k :: (s.drop (k + 1)).splitOn newline :=
        List.splitOn_append_cons_self_of_not_mem plain _

/-- A line of a block, which either closes it or may name an import. -/
theorem filterMap_block (file line : Bytes) (more : List Bytes) :
    ((line :: more).takeWhile fun item =>
        (Graph.ltrim item).head? ≠ some (ch ')')).filterMap (Graph.importOf file) =
      if (Graph.ltrim line).head?.any (· = ch ')') then []
      else (Graph.importOf file line).toList ++
        (more.takeWhile fun item =>
          (Graph.ltrim item).head? ≠ some (ch ')')).filterMap (Graph.importOf file) := by
  by_cases closes : (Graph.ltrim line).head? = some (ch ')')
  · rw [List.takeWhile_cons_of_neg (by simpa using closes), if_pos ((any_head _ _).mpr closes)]
    rfl
  · rw [List.takeWhile_cons_of_pos (by simpa using closes),
      if_neg ((any_head _ _).not.mpr closes), List.filterMap_cons]
    cases Graph.importOf file line <;> rfl

theorem blockFrom_eq (file src : Bytes) : ∀ (fuel pos : Nat), pos ≤ src.length →
    src.length - pos < fuel → blockFrom file src fuel pos =
      .ok ((((src.drop pos).splitOn newline).takeWhile fun item =>
        (Graph.ltrim item).head? ≠ some (ch ')')).filterMap (Graph.importOf file)) := by
  intro fuel
  induction fuel with
  | zero => exact fun pos _ enough => absurd enough (Nat.not_lt_zero _)
  | succ fuel inductionHypothesis =>
      intro pos inside enough
      unfold blockFrom
      rw [if_neg (Nat.not_lt.mpr inside), bind_of_ok (find_rest _ inside)]
      cases found : (src.drop pos).findIdx? (· = newline) with
      | none =>
          have line : between src pos src.length = .ok (src.drop pos) := by
            rw [between_of_le inside (Nat.le_refl _),
              List.take_of_length_le (by rw [List.length_drop])]
          have single : (src.drop pos).splitOn newline = [src.drop pos] :=
            List.splitOn_eq_singleton fun member =>
              absurd (List.findIdx?_eq_none_iff.mp found _ member) (by simp)
          rw [Option.map_none, Option.getD_none, bind_of_ok line, bind_of_ok (ltrim_eq _),
            starts_eq, ok_bind, single, filterMap_block, importOf_eq]
          split
          · rfl
          · simp only [ok_bind, List.takeWhile_nil, List.filterMap_nil, List.append_nil]
      | some k =>
          have less := (List.findIdx?_eq_some_iff_findIdx_eq.mp found).1
          rw [List.length_drop] at less
          have line : between src pos (pos + k) = .ok ((src.drop pos).take k) := by
            rw [between_of_le (by omega) (by omega), Nat.add_sub_cancel_left]
          rw [Option.map_some, Option.getD_some, bind_of_ok line, bind_of_ok (ltrim_eq _),
            starts_eq, ok_bind, splitOn_of_findIdx? found, filterMap_block, importOf_eq,
            List.drop_drop]
          split
          · rfl
          · rw [ok_bind]
            dsimp only
            rw [inductionHypothesis (pos + k + 1) (by omega) (by omega), ok_bind]
            rfl

def importsOf (file src : Bytes) (l : Line) : Checked (List Dep) := do
  let t ← ltrim l.sv
  if (str "package").isPrefixOf t ∨ ¬(str "import").isPrefixOf t then .ok []
  else
    let rest ← behind t 6
    if ← starts (· = ch '(') rest then blockFrom file src (src.length + 1) l.fin
    else
      let dep ← importOf file rest
      .ok dep.toList

theorem importsOf_eq {file src : Bytes} {l : Line} (inside : l.In src) :
    importsOf file src l = .ok (Graph.importsOf file src l) := by
  rw [importsOf, bind_of_ok (ltrim_eq l.sv), Graph.importsOf]
  generalize Graph.ltrim l.sv = t
  by_cases other : (str "package").isPrefixOf t = true ∨ ¬(str "import").isPrefixOf t = true
  · rw [if_pos other, if_pos other]
  · have named : (str "import").isPrefixOf t = true := of_not_not fun plain => other (.inr plain)
    rw [if_neg other, if_neg other, bind_of_ok (behind_eq (length_of_isPrefixOf named (by decide)))]
    generalize Graph.ltrim (t.drop 6) = rest
    rw [starts_eq, ok_bind]
    by_cases block : rest.head? = some (ch '(')
    · rw [if_pos ((any_head rest _).mpr block), if_pos block]
      exact blockFrom_eq file src _ _ inside.inside (by omega)
    · rw [if_neg ((any_head rest _).not.mpr block), if_neg block, importOf_eq]
      rfl

/-- The position of the parameter list. -/
def skipGenerics (rest : Bytes) : Nat → Nat → Checked Nat
  | 0, sig => .ok sig
  | fuel + 1, sig =>
      if sig < rest.length then do
        let b ← item rest sig
        if isBlank b then skipGenerics rest fuel (sig + 1)
        else if b = ch '[' then
          let close ← closeFrom (ch '[') (ch ']') rest (rest.length - sig) sig 0
          skipGenerics rest fuel (close.elim rest.length (· + 1))
        else .ok sig
      else .ok sig

theorem skipGenerics_spec (rest : Bytes) : ∀ (fuel : Nat) {sig : Nat}, sig ≤ rest.length →
    ∃ q ≤ rest.length, skipGenerics rest fuel sig = .ok q ∧
      rest.drop q = Graph.skipGenerics fuel (rest.drop sig) := by
  intro fuel
  induction fuel with
  | zero => exact fun inside => ⟨_, inside, rfl, rfl⟩
  | succ fuel inductionHypothesis =>
      intro sig inside
      unfold skipGenerics
      rcases Nat.lt_or_eq_of_le inside with more | rfl
      swap
      · exact ⟨_, inside, if_neg (Nat.lt_irrefl _), by rw [List.drop_length]; rfl⟩
      have here := List.drop_eq_getElem_cons more
      rw [if_pos more, bind_of_ok (item_of_drop here), here, Graph.skipGenerics]
      by_cases space : isBlank rest[sig] = true
      · rw [if_pos space, if_pos space]
        exact inductionHypothesis more
      rw [if_neg space, if_neg space]
      by_cases bracket : rest[sig] = ch '['
      swap
      · rw [if_neg bracket, if_neg bracket]
        exact ⟨sig, inside, rfl, here⟩
      rw [if_pos bracket, if_pos bracket, bind_of_ok (closeFrom_rest _ _ inside), ← here]
      cases closes : balance (ch '[') (ch ']') 0 (rest.drop sig) with
      | none =>
          obtain ⟨q, fits, skipped, left⟩ := inductionHypothesis (Nat.le_refl rest.length)
          rw [List.drop_length] at left
          refine ⟨q, fits, skipped, left.trans ?_⟩
          cases fuel <;> rfl
      | some k =>
          -- the bracket closes within the line
          have less := lt_of_balance closes
          rw [List.length_drop] at less
          have next : sig + k + 1 ≤ rest.length := by omega
          simp only [Option.map_some, Option.elim_some, List.drop_drop]
          exact inductionHypothesis next

/-- The definition of a name behind `func`. -/
def namedDef (code : Bytes) (l : Line) (t rest : Bytes) : Checked (Option FuncDef) := do
  if ← starts isIdentChar rest then
    let name ← word rest
    let base := textBase l t + t.length - rest.length
    let sig ← skipGenerics rest rest.length name.length
    if sig < rest.length then
      let b ← item rest sig
      if b ≠ ch '(' then .ok none
      else
        match ← closeFrom (ch '(') (ch ')') rest (rest.length - sig) sig 0 with
        | none => .ok none
        | some j =>
            match ← find (· = ch '{') rest (rest.length - (j + 1)) (j + 1) with
            | none => .ok none
            | some k =>
                match ← matchBrace code (base + k) with
                | none => .ok none
                | some close => .ok (some ⟨base, l.off, base + k, close, name⟩)
    else .ok none
  else .ok none

/-- The definition that what is left of a `func` line gives a name to. -/
def defined (code : Bytes) (l : Line) (rest : Bytes) : Option FuncDef := do
  let name := identOf rest
  guard (name ≠ [])
  let sig := Graph.skipGenerics rest.length (rest.drop name.length)
  guard (sig.head? = some (ch '('))
  let len ← balance (ch '(') (ch ')') 0 sig
  let left := sig.drop (len + 1)
  let k ← left.findIdx? (· = ch '{')
  let close ← Graph.matchBrace code (l.fin - left.length + k)
  pure ⟨l.fin - rest.length, l.off, l.fin - left.length + k, close, name⟩

theorem goDefOf_defined (code : Bytes) (l : Line) : Graph.goDefOf code l = (do
    let head := Graph.ltrim ((Graph.ltrim l.sv).drop 4)
    let rest ←
      if head.head? = some (ch '(') then
        (balance (ch '(') (ch ')') 0 head).map fun e => Graph.ltrim (head.drop (e + 1))
      else some head
    defined code l rest) := rfl

theorem namedDef_eq {code : Bytes} {l : Line} (inside : l.In code) {t rest : Bytes}
    (text : t <:+ l.sv) (left : rest <:+ t) :
    namedDef code l t rest = .ok (defined code l rest) := by
  have shorter : rest.length ≤ l.sv.length := (left.trans text).length_le
  have fin := inside.fin
  have fits := inside.inside
  rw [namedDef, starts_eq, ok_bind, defined, textBase_eq inside text left]
  by_cases named : identOf rest = []
  · rw [if_neg ((any_identChar _).not.mpr (not_not_intro named))]
    simp [named, guard]
  have within : (identOf rest).length ≤ rest.length := (List.takeWhile_sublist _).length_le
  obtain ⟨q, order, skipped, sig⟩ := skipGenerics_spec rest rest.length within
  rw [if_pos ((any_identChar rest).mpr named), word_eq, ok_bind, bind_of_ok skipped]
  simp only [← sig, guard, if_pos named, List.drop_drop, Option.bind_eq_bind, Option.bind_some,
    pure]
  rcases Nat.lt_or_eq_of_le order with more | rfl
  swap
  · rw [if_neg (Nat.lt_irrefl _), List.drop_length]
    rfl
  have here := List.drop_eq_getElem_cons more
  have first : (rest.drop q).head? = some (ch '(') ↔ rest[q] = ch '(' := by
    rw [here, List.head?_cons, Option.some_inj]
  rw [if_pos more, bind_of_ok (item_of_drop here)]
  by_cases paren : rest[q] = ch '('
  swap
  · rw [if_pos paren, if_neg (first.not.mpr paren)]
    rfl
  rw [if_neg (not_not_intro paren), if_pos (first.mpr paren), bind_of_ok (closeFrom_rest _ _ order)]
  cases closes : balance (ch '(') (ch ')') 0 (rest.drop q) with
  | none => rfl
  | some len =>
  have less := lt_of_balance closes
  rw [List.length_drop] at less
  simp only [Option.map_some, Option.bind_some]
  rw [bind_of_ok (find_rest _ (by omega)), ← Nat.add_assoc]
  cases found : (rest.drop (q + len + 1)).findIdx? (· = ch '{') with
  | none => rfl
  | some k =>
  have place := (List.findIdx?_eq_some_iff_findIdx_eq.mp found).1
  rw [List.length_drop] at place
  have same : l.fin - (rest.length - (q + len + 1)) + k =
      l.fin - rest.length + (q + len + 1 + k) := by omega
  simp only [Option.map_some, Option.bind_some]
  rw [List.length_drop, same, bind_of_ok (matchBrace_eq (by omega))]
  cases Graph.matchBrace code (l.fin - rest.length + (q + len + 1 + k)) <;> rfl

def goDefOf (code : Bytes) (l : Line) (t : Bytes) : Checked (Option FuncDef) := do
  let head ← behind t 4
  if ← starts (· = ch '(') head then
    match ← closeFrom (ch '(') (ch ')') head head.length 0 0 with
    | none => .ok none
    | some e =>
        let rest ← behind head (e + 1)
        namedDef code l t rest
  else namedDef code l t head

theorem goDefOf_eq {code : Bytes} {l : Line} (inside : l.In code)
    (long : 4 ≤ (Graph.ltrim l.sv).length) :
    goDefOf code l (Graph.ltrim l.sv) = .ok (Graph.goDefOf code l) := by
  have text : Graph.ltrim l.sv <:+ l.sv := ltrim_suffix l.sv
  have left := ltrim_drop_suffix (List.suffix_refl (Graph.ltrim l.sv)) 4
  rw [goDefOf, bind_of_ok (behind_eq long), goDefOf_defined]
  generalize Graph.ltrim l.sv = t at *
  generalize Graph.ltrim (t.drop 4) = head at *
  rw [starts_eq, ok_bind]
  by_cases receiver : head.head? = some (ch '(')
  swap
  · rw [if_neg ((any_head head _).not.mpr receiver), if_neg receiver]
    exact namedDef_eq inside text left
  have closing := closeFrom_rest (ch '(') (ch ')') (Nat.zero_le head.length)
  rw [Nat.sub_zero, List.drop_zero] at closing
  rw [if_pos ((any_head head _).mpr receiver), if_pos receiver, bind_of_ok closing]
  cases closes : balance (ch '(') (ch ')') 0 head with
  | none => rfl
  | some e =>
  have less := lt_of_balance closes
  simp only [Option.map_some, Nat.zero_add]
  rw [bind_of_ok (behind_eq less)]
  exact namedDef_eq inside text (ltrim_drop_suffix left (e + 1))

def goVisibility (name : Bytes) : Checked Visibility := do
  if ← starts (fun b => ch 'A' ≤ b && b ≤ ch 'Z') name then .ok .public_ else .ok .private_

theorem goVisibility_eq (name : Bytes) : goVisibility name = .ok (Graph.goVisibility name) := by
  rw [goVisibility, starts_eq, ok_bind, Graph.goVisibility]
  cases name.head?.any _ <;> rfl

def typeOf (code : Bytes) (l : Line) (t rest : Bytes) : Checked (Option Sym) := do
  match ← wordSym .type code l t rest with
  | none => .ok none
  | some s =>
      let b ← item s.name 0
      .ok (some { s with vis := if ch 'A' ≤ b ∧ b ≤ ch 'Z' then .public_ else .private_ })

theorem typeOf_eq {code : Bytes} {l : Line} (inside : l.In code) {t rest : Bytes}
    (text : t <:+ l.sv) (left : rest <:+ t) : typeOf code l t rest =
      .ok ((Graph.wordSym .type code l rest).map fun s =>
        { s with vis := Graph.goVisibility s.name }) := by
  rw [typeOf, wordSym_eq inside text left, ok_bind]
  cases word : Graph.wordSym .type code l rest with
  | none => rfl
  | some s =>
      obtain ⟨b, more, named⟩ := List.exists_cons_of_ne_nil (hasName_wordSym word).1
      dsimp only
      rw [named, item_zero, ok_bind, Option.map_some, named, Graph.goVisibility]
      simp only [List.head?_cons, Option.any_some, Bool.and_eq_true, decide_eq_true_eq]

/-- Whether a text has so many bytes only, or a blank behind them. -/
def endsAt (t : Bytes) (count : Nat) : Checked Bool :=
  if t.length = count then .ok true
  else do
    let b ← item t count
    .ok (isBlank b)

theorem endsAt_eq {t : Bytes} {count : Nat} (long : count ≤ t.length) :
    endsAt t count = .ok ((t.drop count).head?.all isBlank) := by
  unfold endsAt
  rcases Nat.lt_or_eq_of_le long with more | same
  · have here := List.drop_eq_getElem_cons more
    rw [if_neg (Nat.ne_of_gt more), bind_of_ok (item_of_drop here), here]
    rfl
  · rw [if_pos same.symm, List.drop_eq_nil_of_le same.ge]
    rfl

def isFunc (t : Bytes) : Checked Bool :=
  if (str "func").isPrefixOf t then endsAt t 4 else .ok false

theorem isFunc_eq (t : Bytes) : isFunc t =
    .ok (decide ((str "func").isPrefixOf t ∧ (t.drop 4).head?.all isBlank)) := by
  unfold isFunc
  split
  · next named => rw [endsAt_eq (length_of_isPrefixOf named (by decide))]; simp [named]
  · next other => simp [other]

def classifyGo (code : Bytes) (l : Line) : Checked Found := do
  let t ← ltrim l.sv
  if t = [] then .ok .nothing
  else if ← isFunc t then
    match ← goDefOf code l t with
    | some d => .ok (.definition d)
    | none => .ok .nothing
  else if (str "type").isPrefixOf t then
    let rest ← behind t 4
    let s ← typeOf code l t rest
    .ok (.ofSym s)
  else if (str "var").isPrefixOf t ∨ (str "const").isPrefixOf t then
    let b ← item t 0
    let rest ← behind t (if b = ch 'v' then 3 else 5)
    let s ← wordSym (if b = ch 'c' then .const_ else .global) code l t rest
    .ok (.ofSym s)
  else .ok .nothing

theorem item_of_isPrefixOf {keyword t : Bytes} (starts : keyword.isPrefixOf t = true) {b : UInt8}
    (first : keyword.head? = some b) : item t 0 = .ok b := by
  obtain ⟨rest, rfl⟩ := List.isPrefixOf_iff_prefix.mp starts
  obtain ⟨more, rfl⟩ := List.head?_eq_some_iff.mp first
  rfl

theorem classifyGo_eq {code : Bytes} {l : Line} (inside : l.In code) :
    classifyGo code l = .ok (Graph.classifyGo code l) := by
  have text : Graph.ltrim l.sv <:+ l.sv := ltrim_suffix l.sv
  have define := @goDefOf_eq code l inside
  rw [classifyGo, bind_of_ok (ltrim_eq l.sv), Graph.classifyGo]
  generalize Graph.ltrim l.sv = t at *
  by_cases empty : t = []
  · subst empty
    rfl
  rw [if_neg empty, isFunc_eq, ok_bind]
  by_cases func : (str "func").isPrefixOf t = true ∧ (t.drop 4).head?.all isBlank = true
  · rw [if_pos (decide_eq_true func), if_pos func,
      define (length_of_isPrefixOf func.1 (by decide)), ok_bind]
    cases Graph.goDefOf code l <;> rfl
  rw [if_neg (by simpa using func), if_neg func]
  split
  · next named =>
    rw [behind_eq (length_of_isPrefixOf named (by decide)), ok_bind,
      typeOf_eq inside text (ltrim_drop_suffix List.suffix_rfl 4), ok_bind]
  by_cases isVar : (str "var").isPrefixOf t = true
  · rw [if_pos (.inl isVar), if_pos isVar, bind_of_ok (item_of_isPrefixOf isVar (b := ch 'v') rfl),
      if_pos rfl, behind_eq (length_of_isPrefixOf isVar (by decide)), ok_bind,
      wordSym_eq inside text (ltrim_drop_suffix List.suffix_rfl 3), ok_bind]
    rfl
  by_cases isConst : (str "const").isPrefixOf t = true
  · rw [if_pos (.inr isConst), if_neg isVar, if_pos isConst,
      bind_of_ok (item_of_isPrefixOf isConst (b := ch 'c') rfl), if_neg (by decide),
      behind_eq (length_of_isPrefixOf isConst (by decide)), ok_bind,
      wordSym_eq inside text (ltrim_drop_suffix List.suffix_rfl 5), ok_bind]
    rfl
  · rw [if_neg (not_or.mpr ⟨isVar, isConst⟩), if_neg isVar, if_neg isConst]

/-- Whether the last byte before a name that is no blank closes a receiver. -/
def isMethod (code : Bytes) (d : FuncDef) : Checked Bool := do
  let p ← passBack isBlank code d.start d.nameOff
  if d.start < p then
    let b ← item code (p - 1)
    .ok (decide (b = ch ')'))
  else .ok false

theorem isMethod_eq {code : Bytes} {d : FuncDef} (order : d.start ≤ d.nameOff)
    (inside : d.nameOff ≤ code.length) :
    isMethod code d = .ok (decide (beforeName code d = some (ch ')'))) := by
  have part : slice code d.start d.nameOff = (code.take d.nameOff).drop d.start :=
    (List.drop_take ..).symm
  rw [isMethod, bind_of_ok (passBack_eq isBlank d.nameOff inside), beforeName, part,
    ← drop_length_takeWhile, List.head?_drop]
  have size : ((code.take d.nameOff).drop d.start).length = d.nameOff - d.start := by
    rw [List.length_drop, List.length_take]
    omega
  generalize (((code.take d.nameOff).drop d.start).reverse.takeWhile isBlank).length = blanks
  by_cases more : d.start < d.nameOff - blanks
  · have place : d.start + (d.nameOff - d.start - 1 - blanks) = d.nameOff - blanks - 1 := by omega
    have last : ((code.take d.nameOff).drop d.start).reverse[blanks]? =
        some (byteAt code (d.nameOff - blanks - 1)) := by
      rw [List.getElem?_reverse (by omega), size, List.getElem?_drop, place,
        List.getElem?_take_of_lt (by omega), List.getElem?_eq_getElem (by omega), byteAt,
        List.getD_eq_getElem?_getD, List.getElem?_eq_getElem (by omega)]
      rfl
    rw [if_pos more, bind_of_ok (item_byteAt (by omega)), last]
    simp only [Option.some_inj]
  · rw [if_neg more, List.getElem?_eq_none (by rw [List.length_reverse, size]; omega)]
    rfl

/-- The kind and the visibility of a definition, which are set once its symbol is there. -/
def fixKind (code : Bytes) (base : Nat) (syms : List Sym) (d : FuncDef) (di : Nat) :
    Checked (List Sym) := do
  let s ← item syms (base + di)
  let method ← isMethod code d
  let vis ← goVisibility d.name
  setItem syms (base + di) { s with kind := if method then .method else .function, vis }

def fixKinds (code : Bytes) (base : Nat) : List FuncDef → Nat → List Sym → Checked (List Sym)
  | [], _, syms => .ok syms
  | d :: defs, di, syms => do
      let syms ← fixKind code base syms d di
      fixKinds code base defs (di + 1) syms

theorem fixKind_eq {code : Bytes} {front more : List Sym} {d : FuncDef} {base di : Nat}
    (place : front.length = base + di) (order : d.start ≤ d.nameOff)
    (inside : d.nameOff ≤ code.length) :
    fixKind code base (front ++ Graph.defSym code d :: more) d di =
      .ok (front ++ Graph.goDefSym code d :: more) := by
  have here : item (front ++ Graph.defSym code d :: more) (base + di) =
      .ok (Graph.defSym code d) := by
    rw [← place]
    exact item_of_drop (List.drop_left ..)
  rw [fixKind, bind_of_ok here, isMethod_eq order inside, goVisibility_eq, ok_bind, ok_bind,
    setItem_of_lt (by rw [List.length_append, ← place]; simp), ← place]
  simp [Graph.goDefSym]

/-- A definition is named behind the start of its line. -/
def Named (code : Bytes) (d : FuncDef) : Prop := d.start ≤ d.nameOff ∧ d.nameOff ≤ code.length

theorem fixKinds_eq {code : Bytes} {base : Nat} {more : List Sym} : ∀ {defs : List FuncDef},
    (∀ d ∈ defs, Named code d) → ∀ {front : List Sym} {di : Nat}, front.length = base + di →
      fixKinds code base defs di (front ++ (defs.map (Graph.defSym code) ++ more)) =
        .ok (front ++ (defs.map (Graph.goDefSym code) ++ more)) := by
  intro defs
  induction defs with
  | nil => exact fun _ _ _ _ => rfl
  | cons d defs inductionHypothesis =>
      intro named front di place
      obtain ⟨here, later⟩ := List.forall_mem_cons.mp named
      have length : (front ++ [Graph.goDefSym code d]).length = base + (di + 1) := by
        rw [List.length_append, place]
        rfl
      have rest := inductionHypothesis later length
      rw [List.append_assoc, List.append_assoc] at rest
      rw [fixKinds, List.map_cons, List.cons_append, bind_of_ok (fixKind_eq place here.1 here.2)]
      exact rest

theorem named_of_foundGo {code : Bytes} : ∀ d ∈ definitions (foundGo code), Named code d := by
  intro d member
  obtain ⟨l, there, found⟩ := List.mem_map.mp (mem_definitions.mp member)
  have inside := in_of_mem_linesOf there
  obtain ⟨rest, left, k, close, suffix, -, -, rfl⟩ := goDefOf_cases (goDefOf_of_classifyGo found)
  have start := (inside.drop_of_suffix suffix).1
  have fits := inside.inside
  exact ⟨start, (Nat.sub_le ..).trans fits⟩

def extractGo (file src : Bytes) : Checked Extraction := do
  let lines ← linesOf src
  let packages ← lines.mapM (packageOf src)
  let imports ← lines.mapM (importsOf file src)
  let code ← maskCommentsAndStrings src
  let lines ← linesOf code
  let found ← lines.mapM (classifyGo code)
  let defs := definitions found
  let defSyms ← defs.mapM (defSym code)
  let base := (packages.filterMap id).length
  let syms ← fixKinds code base defs 0 (packages.filterMap id ++ defSyms ++ extras found)
  let sites ← callSites kGoKeywords code defs
  .ok (.found syms (imports.flatten ++ sites.map (callDep file base defs)))

theorem extractGo_eq (file src : Bytes) :
    extractGo file src = .ok (Graph.extractGo file src) := by
  have each {s : Bytes} {l : Line} (member : l ∈ Graph.linesOf s) := in_of_mem_linesOf member
  have classified (code : Bytes) :
      (Graph.linesOf code).mapM (classifyGo code) = .ok (foundGo code) :=
    mapM_eq fun l member => classifyGo_eq (each member)
  have packages :
      ((Graph.linesOf src).map (Graph.packageOf src)).filterMap id = goPackages src := by
    rw [List.filterMap_map, Function.id_comp]
    rfl
  rw [extractGo, bind_of_ok (linesOf_eq src),
    bind_of_ok (mapM_eq (g := Graph.packageOf src) fun l member => packageOf_eq (each member)),
    bind_of_ok (mapM_eq (g := Graph.importsOf file src) fun l member => importsOf_eq (each member)),
    bind_of_ok (maskCommentsAndStrings_eq src), bind_of_ok (linesOf_eq _),
    bind_of_ok (classified _), packages,
    bind_of_ok (mapM_eq (g := Graph.defSym _) fun d _ => defSym_eq _ d)]
  dsimp only
  rw [List.append_assoc, bind_of_ok (fixKinds_eq named_of_foundGo rfl),
    bind_of_ok (callSites_eq ..), Graph.extractGo, goSyms, List.append_assoc, List.flatMap_def]

end Opencodepp.Graph.Scan
