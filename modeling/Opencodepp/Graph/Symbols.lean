import Mathlib.Data.Option.Basic
import Opencodepp.Core.Error
import Opencodepp.Graph.Source

/-!
# Symbols and dependencies of a file

The fallback extractors.  They find definitions by their signature lines, other symbols by
the keyword a line starts with, and calls by an identifier before a parenthesis; a call is
attributed to the first definition whose body it lies in.  Symbols have no ids yet: the
attribution is one more than the position of the definition in the list of symbols of the
file, and zero outside of every body.
-/

set_option autoImplicit false

namespace Opencodepp.Graph

open Opencodepp.Core
open Opencodepp.Library

inductive Lang
  | unknown
  | c
  | cpp
  | go
  deriving Repr, DecidableEq

inductive SymKind
  | unknown
  | function
  | method
  | class_
  | struct_
  | type
  | global
  | import_
  | namespace_
  | enum_
  | const_
  | macro_
  | package
  deriving Repr, DecidableEq

inductive DepKind
  | call
  | type
  | include_
  deriving Repr, DecidableEq

inductive Visibility
  | unknown
  | public_
  | private_
  | protected_
  | internal
  deriving Repr, DecidableEq

/-- A symbol.  The id zero marks an entry that was removed. -/
structure Sym where
  id : Nat := 0
  kind : SymKind := .unknown
  name : Bytes := []
  qual : Bytes := []
  file : Bytes := []
  line : UInt32 := 0
  start : UInt32 := 0
  end_ : UInt32 := 0
  lang : Lang := .unknown
  vis : Visibility := .unknown
  deriving Repr, DecidableEq

/-- A dependency.  The symbol zero is no symbol. -/
structure Dep where
  fromSym : Nat := 0
  toSym : Nat := 0
  kind : DepKind := .call
  fromFile : Bytes := []
  toFile : Bytes := []
  toName : Bytes := []
  deriving Repr, DecidableEq

/-- A function definition: offsets of its name, of its signature line, of the brace that
opens its body, and just past the one that closes it. -/
structure FuncDef where
  nameOff : Nat
  start : Nat
  bodyOpen : Nat
  bodyEnd : Nat
  name : Bytes
  deriving Repr, DecidableEq

def kCKeywords : List Bytes :=
  ["if", "else", "while", "for", "do", "switch", "case", "return", "sizeof", "catch", "throw",
    "new", "delete", "goto", "try", "using", "typedef", "friend", "operator", "template",
    "typename", "virtual", "override", "final", "namespace", "struct", "class", "enum", "union",
    "public", "private", "protected", "const_cast", "static_cast", "dynamic_cast",
    "reinterpret_cast", "void", "char", "int", "float", "double", "long", "short", "unsigned",
    "signed", "auto", "register", "volatile", "constexpr", "static", "const", "extern",
    "inline"].map str

def kGoKeywords : List Bytes :=
  ["if", "for", "range", "switch", "select", "func", "go", "defer", "return", "make", "new",
    "append", "len", "cap", "copy", "delete", "recover", "panic", "goto", "case", "fallthrough",
    "type", "var", "const", "package", "import", "struct", "interface", "map", "chan"].map str

/-- A symbol at an offset that extends over its name. -/
def nameSym (kind : SymKind) (name code : Bytes) (off : Nat) : Sym :=
  { kind, name, qual := name, line := lineOf code off, start := off.toUInt32
    end_ := off.toUInt32 + name.length.toUInt32 }

/-- A symbol that extends over a definition. -/
def defSym (code : Bytes) (d : FuncDef) : Sym :=
  { kind := .function, name := d.name, qual := d.name, line := lineOf code d.nameOff
    start := d.start.toUInt32, end_ := d.bodyEnd.toUInt32 }

/-- The identifier behind a keyword, as a symbol. -/
def wordSym (kind : SymKind) (code : Bytes) (l : Line) (rest : Bytes) : Option Sym :=
  let name := identOf rest
  if name = [] then none else some (nameSym kind name code (l.fin - rest.length))

def includeDep (file target : Bytes) : Dep :=
  { kind := .include_, fromFile := file, toFile := target, toName := target }

/-! ## Calls -/

/-- The position of the first definition whose body an offset lies in. -/
def insideDef (defs : List FuncDef) (off : Nat) : Option Nat :=
  defs.findIdx? fun d => d.bodyOpen < off ∧ off < d.bodyEnd

/-- A call: the offset of the called name, and the name. -/
structure CallSite where
  off : Nat
  name : Bytes
  deriving Repr, DecidableEq

/-- The call whose argument list opens at `i`. -/
def callAt (keywords : List Bytes) (code : Bytes) (defs : List FuncDef) (l : Line) (i : Nat) :
    Option CallSite :=
  let q := identStart code l.off i
  let tok := slice code q i
  if byteAt code i = ch '(' ∧ q ≠ i ∧ tok ∉ keywords ∧ ∀ d ∈ defs, d.nameOff ≠ q then
    some ⟨q, tok⟩
  else none

def callSites (keywords : List Bytes) (code : Bytes) (defs : List FuncDef) : List CallSite :=
  (linesOf code).flatMap fun l =>
    (List.range' l.off (l.fin - l.off)).filterMap (callAt keywords code defs l)

/-- The attribution of a call, when the definitions stand behind `base` other symbols. -/
def enclosing (base : Nat) (defs : List FuncDef) (off : Nat) : Nat :=
  match insideDef defs off with
  | some i => base + i + 1
  | none => 0

def callDep (file : Bytes) (base : Nat) (defs : List FuncDef) (site : CallSite) : Dep :=
  { kind := .call, toName := site.name, toFile := file, fromFile := file
    fromSym := enclosing base defs site.off }

/-! ## C and C++ -/

/-- The target of an include directive. -/
def includeOf (file : Bytes) (l : Line) : Option Dep := do
  let t := ltrim l.sv
  guard ((str "#include").isPrefixOf t)
  let opening ← (ltrim (t.drop 8)).head?
  let rest := (ltrim (t.drop 8)).drop 1
  guard (opening = ch '<' ∨ opening = ch '"')
  let e ← rest.findIdx? (· = if opening = ch '<' then ch '>' else ch '"')
  pure (includeDep file (rest.take e))

/-- The start of a name with its `::` segments.  Every round passes two colons, so that the
offset is fuel enough. -/
def qualStart (code : Bytes) (low : Nat) : Nat → Nat → Nat
  | 0, ns => ns
  | fuel + 1, ns =>
      if 2 ≤ ns ∧ byteAt code (ns - 1) = ch ':' ∧ byteAt code (ns - 2) = ch ':' then
        qualStart code low fuel (identStart code low (ns - 2))
      else ns

/-- The definition whose argument list opens at `i`. -/
def cppDefAt (code : Bytes) (l : Line) (i : Nat) : Option FuncDef := do
  let q := identStart code l.off i
  guard (byteAt code i = ch '(' ∧ q ≠ i ∧ slice code q i ∉ kCKeywords)
  let len ← balance (ch '(') (ch ')') 0 (slice code i l.fin)
  let behind := i + len + 1
  -- a semicolon before the brace makes it a declaration
  let k ← (slice code behind l.fin).findIdx? fun b => b = ch '{' || b = ch ';'
  guard (byteAt code (behind + k) = ch '{')
  let close ← matchBrace code (behind + k)
  let ns := qualStart code l.off q q
  pure ⟨ns, l.off, behind + k, close, slice code ns i⟩

def tryCppDef (code : Bytes) (l : Line) : Option FuncDef :=
  if (ltrim l.sv).head?.all fun b => b = ch '#' || b = ch '}' || b = ch '{' then none
  else (List.range' l.off (l.fin - l.off)).findSome? (cppDefAt code l)

/-- What a line turns out to be.  Looking for the name behind `enum class` takes a suffix
that need not be there, which ends the process. -/
inductive Found
  | nothing
  | extra (s : Sym)
  | definition (d : FuncDef)
  | throws
  deriving Repr, DecidableEq

def Found.ofSym : Option Sym → Found
  | some s => .extra s
  | none => .nothing

def tagKind (w : Bytes) : SymKind :=
  if w = str "struct" then .struct_
  else if w = str "class" then .class_
  else if w = str "enum" then .enum_
  else .type

/-- The name that a `struct`, `class`, `enum` or `union` declares. -/
def tagOf (code : Bytes) (l : Line) (w after : Bytes) : Found :=
  if w = str "enum" ∧ identOf after = str "class" then
    match after.findIdx? isBlank with
    | none => .throws
    | some k => .ofSym (wordSym (tagKind w) code l (ltrim (after.drop k)))
  else .ofSym (wordSym (tagKind w) code l after)

def classifyCpp (code : Bytes) (l : Line) : Found :=
  let t := ltrim l.sv
  if t = [] then .nothing
  else if t.head? = some (ch '#') then
    if (str "#define").isPrefixOf t then .ofSym (wordSym .macro_ code l (ltrim (t.drop 7)))
    else .nothing
  else
    let rest := if (str "typedef").isPrefixOf t then ltrim (t.drop 7) else t
    let w := identOf rest
    if w ∈ ["struct", "class", "enum", "union"].map str then
      tagOf code l w (ltrim (rest.drop w.length))
    else if (str "namespace").isPrefixOf t then
      .ofSym (wordSym .namespace_ code l (ltrim (t.drop 9)))
    else
      match tryCppDef code l with
      | some d => .definition d
      | none => .nothing

/-- A global: a type behind an optional qualifier, a name, and what ends a declarator.  The
name is taken with the blanks before it. -/
def globalOf (code : Bytes) (defs : List FuncDef) (l : Line) : Option Sym := do
  let t := ltrim l.sv
  guard ((insideDef defs l.off).isNone ∧ t.head? ≠ some (ch '#') ∧ t.head? ≠ some (ch '}'))
  let w0 := identOf t
  guard (w0 ≠ [])
  let behind := t.drop w0.length
  let qualified := w0 ∈ ["static", "const", "constexpr", "extern", "volatile"].map str
  guard (qualified → identOf (ltrim behind) ≠ [])
  let declarator :=
    if qualified then (ltrim behind).drop (identOf (ltrim behind)).length else behind
  let word := identOf (ltrim declarator)
  guard (word ≠ [])
  let rest := (ltrim declarator).drop word.length
  let next ← (ltrim rest).head?
  guard (next = ch '=' ∨ next = ch ';' ∨ next = ch '[')
  pure (nameSym .global (declarator.take (declarator.length - rest.length)) code
    (l.fin - declarator.length))

/-- What an extractor finds in a file. -/
inductive Extraction
  | found (syms : List Sym) (deps : List Dep)
  | failed (failure : Failure)
  | terminated

def definitions (found : List Found) : List FuncDef :=
  found.filterMap fun
    | .definition d => some d
    | _ => none

def extras (found : List Found) : List Sym :=
  found.filterMap fun
    | .extra s => some s
    | _ => none

def foundCpp (code : Bytes) : List Found := (linesOf code).map (classifyCpp code)

def cppSyms (code : Bytes) : List Sym :=
  let defs := definitions (foundCpp code)
  defs.map (defSym code) ++ extras (foundCpp code) ++
    (linesOf code).filterMap (globalOf code defs)

def extractCpp (file src : Bytes) : Extraction :=
  let code := maskCommentsAndStrings src
  let defs := definitions (foundCpp code)
  if .throws ∈ foundCpp code then .terminated
  else
    .found (cppSyms code)
      ((linesOf src).filterMap (includeOf file) ++
        (callSites kCKeywords code defs).map (callDep file 0 defs))

/-! ## Go -/

def packageOf (src : Bytes) (l : Line) : Option Sym :=
  let t := ltrim l.sv
  if (str "package").isPrefixOf t then wordSym .package src l (ltrim (t.drop 7)) else none

/-- The path that an import line names. -/
def importOf (file line : Bytes) : Option Dep := do
  let q ← (ltrim line).findIdx? (· = ch '"')
  let rest := (ltrim line).drop (q + 1)
  let close ← rest.findIdx? (· = ch '"')
  pure (includeDep file (rest.take close))

/-- The imports of a line.  A parenthesis opens a block, which is read up to the line that
closes it. -/
def importsOf (file src : Bytes) (l : Line) : List Dep :=
  let t := ltrim l.sv
  if (str "package").isPrefixOf t ∨ ¬(str "import").isPrefixOf t then []
  else
    let rest := ltrim (t.drop 6)
    if rest.head? = some (ch '(') then
      (((src.drop l.fin).splitOn newline).takeWhile fun item =>
        (ltrim item).head? ≠ some (ch ')')).filterMap (importOf file)
    else (importOf file rest).toList

/-- Pass over blanks and brackets of type parameters.  Every round passes a byte, so that the
length is fuel enough. -/
def skipGenerics : Nat → Bytes → Bytes
  | 0, s => s
  | _ + 1, [] => []
  | fuel + 1, b :: rest =>
      if isBlank b then skipGenerics fuel rest
      else if b = ch '[' then
        match balance (ch '[') (ch ']') 0 (b :: rest) with
        | some k => skipGenerics fuel ((b :: rest).drop (k + 1))
        | none => []
      else b :: rest

/-- The definition that a `func` line starts; a receiver may stand before the name. -/
def goDefOf (code : Bytes) (l : Line) : Option FuncDef := do
  let head := ltrim ((ltrim l.sv).drop 4)
  let rest ←
    if head.head? = some (ch '(') then
      (balance (ch '(') (ch ')') 0 head).map fun e => ltrim (head.drop (e + 1))
    else some head
  let name := identOf rest
  guard (name ≠ [])
  let sig := skipGenerics rest.length (rest.drop name.length)
  guard (sig.head? = some (ch '('))
  let len ← balance (ch '(') (ch ')') 0 sig
  let behind := sig.drop (len + 1)
  let k ← behind.findIdx? (· = ch '{')
  let close ← matchBrace code (l.fin - behind.length + k)
  pure ⟨l.fin - rest.length, l.off, l.fin - behind.length + k, close, name⟩

/-- A name is exported when it starts with a capital. -/
def goVisibility (name : Bytes) : Visibility :=
  if name.head?.any fun b => ch 'A' ≤ b && b ≤ ch 'Z' then .public_ else .private_

def classifyGo (code : Bytes) (l : Line) : Found :=
  let t := ltrim l.sv
  if (str "func").isPrefixOf t ∧ (t.drop 4).head?.all isBlank then
    match goDefOf code l with
    | some d => .definition d
    | none => .nothing
  else if (str "type").isPrefixOf t then
    .ofSym ((wordSym .type code l (ltrim (t.drop 4))).map fun s =>
      { s with vis := goVisibility s.name })
  else if (str "var").isPrefixOf t then .ofSym (wordSym .global code l (ltrim (t.drop 3)))
  else if (str "const").isPrefixOf t then .ofSym (wordSym .const_ code l (ltrim (t.drop 5)))
  else .nothing

/-- The last byte before the name of a definition that is no blank. -/
def beforeName (code : Bytes) (d : FuncDef) : Option UInt8 :=
  ((slice code d.start d.nameOff).reverse.dropWhile isBlank).head?

/-- A definition behind a receiver is a method. -/
def goDefSym (code : Bytes) (d : FuncDef) : Sym :=
  { defSym code d with
    kind := if beforeName code d = some (ch ')') then .method else .function
    vis := goVisibility d.name }

def foundGo (code : Bytes) : List Found := (linesOf code).map (classifyGo code)

def goPackages (src : Bytes) : List Sym := (linesOf src).filterMap (packageOf src)

def goSyms (src : Bytes) : List Sym :=
  let code := maskCommentsAndStrings src
  goPackages src ++ (definitions (foundGo code)).map (goDefSym code) ++ extras (foundGo code)

def extractGo (file src : Bytes) : Extraction :=
  let code := maskCommentsAndStrings src
  let defs := definitions (foundGo code)
  .found (goSyms src)
    ((linesOf src).flatMap (importsOf file src) ++
      (callSites kGoKeywords code defs).map (callDep file (goPackages src).length defs))

def extractLang (lang : Lang) (file src : Bytes) : Extraction :=
  match lang with
  | .unknown => .failed (.of .eNotImpl)
  | .c | .cpp => extractCpp file src
  | .go => extractGo file src

/-! ## Names -/

/-- A symbol has a name, which is its qualified name too. -/
def Sym.HasName (s : Sym) : Prop := s.name ≠ [] ∧ s.qual = s.name

theorem hasName_wordSym {kind : SymKind} {code : Bytes} {l : Line} {rest : Bytes} {s : Sym}
    (word : wordSym kind code l rest = some s) : s.HasName := by
  unfold wordSym at word
  dsimp only at word
  split at word
  · cases word
  · rename_i nonempty
    cases word
    exact ⟨nonempty, rfl⟩

theorem identStart_le (code : Bytes) (low : Nat) : ∀ q, identStart code low q ≤ q := by
  intro q
  induction q with
  | zero => exact Nat.le_refl 0
  | succ q ih =>
      unfold identStart
      split <;> omega

theorem qualStart_le (code : Bytes) (low : Nat) : ∀ fuel ns, qualStart code low fuel ns ≤ ns := by
  intro fuel
  induction fuel with
  | zero => exact fun ns => Nat.le_refl ns
  | succ fuel ih =>
      intro ns
      unfold qualStart
      split
      · have := ih (identStart code low (ns - 2))
        have := identStart_le code low (ns - 2)
        omega
      · exact Nat.le_refl ns

theorem slice_ne_nil {code : Bytes} {first last : Nat} (order : first < last)
    (inside : first < code.length) : slice code first last ≠ [] := by
  intro empty
  have := congrArg List.length empty
  simp only [slice, List.length_take, List.length_drop, List.length_nil] at this
  omega

/-- The name of a definition is what stands before the argument list. -/
theorem name_of_cppDefAt {code : Bytes} {l : Line} {i : Nat} {d : FuncDef}
    (defined : cppDefAt code l i = some d) : d.name ≠ [] := by
  unfold cppDefAt at defined
  simp only [bind, Option.bind_eq_some_iff, Option.guard_eq_some'] at defined
  obtain ⟨_, opens, _, _, _, _, _, _, _, _, same⟩ := defined
  obtain ⟨paren, before, _⟩ := opens
  cases Option.some.inj same
  have inside : i < code.length := by
    by_contra beyond
    rw [byteAt, List.getD_eq_getElem?_getD, List.getElem?_eq_none (by omega)] at paren
    exact absurd paren (by decide)
  have start := identStart_le code l.off i
  have segments := qualStart_le code l.off (identStart code l.off i) (identStart code l.off i)
  exact slice_ne_nil (by omega) (by omega)

/-- The word of a declarator is a part that the rest does not have. -/
theorem declared_ne_nil {declarator : Bytes} (word : identOf (ltrim declarator) ≠ []) :
    declarator.take (declarator.length -
      ((ltrim declarator).drop (identOf (ltrim declarator)).length).length) ≠ [] := by
  have whole : (identOf (ltrim declarator)).length ≤ (ltrim declarator).length :=
    (List.takeWhile_sublist _).length_le
  have trimmed : (ltrim declarator).length ≤ declarator.length :=
    (List.dropWhile_sublist _).length_le
  have longer := List.length_pos_iff.mpr word
  intro empty
  have := congrArg List.length empty
  simp only [List.length_take, List.length_drop, List.length_nil] at this
  omega

theorem hasName_globalOf {code : Bytes} {defs : List FuncDef} {l : Line} {s : Sym}
    (global : globalOf code defs l = some s) : s.HasName := by
  unfold globalOf at global
  simp only [bind, Option.bind_eq_some_iff, Option.guard_eq_some'] at global
  obtain ⟨_, _, _, _, _, _, _, word, _, _, _, _, same⟩ := global
  cases Option.some.inj same
  exact ⟨declared_ne_nil word, rfl⟩

theorem name_of_goDefOf {code : Bytes} {l : Line} {d : FuncDef} (defined : goDefOf code l = some d) :
    d.name ≠ [] := by
  unfold goDefOf at defined
  dsimp only at defined
  split at defined
  all_goals
    simp only [bind, Option.bind_eq_some_iff, Option.guard_eq_some'] at defined
    obtain ⟨rest, _, _, named, _, _, _, _, _, _, _, _, same⟩ := defined
    cases Option.some.inj same
    exact named

/-- What a line is found to be has a name. -/
def Found.Proper : Found → Prop
  | .extra s => s.HasName
  | .definition d => d.name ≠ []
  | _ => True

theorem Found.proper_ofSym {found : Option Sym} (named : ∀ s ∈ found, s.HasName) :
    (Found.ofSym found).Proper := by
  cases found with
  | none => trivial
  | some t => exact named t rfl

theorem proper_classifyCpp (code : Bytes) (l : Line) : (classifyCpp code l).Proper := by
  have word : ∀ kind rest, (Found.ofSym (wordSym kind code l rest)).Proper := fun kind rest =>
    Found.proper_ofSym fun _ found => hasName_wordSym found
  have tag : ∀ w after, (tagOf code l w after).Proper := by
    intro w after
    unfold tagOf
    split
    · split
      · trivial
      · exact word ..
    · exact word ..
  unfold classifyCpp
  extract_lets t rest w
  split
  · trivial
  split
  · split
    · exact word ..
    · trivial
  split
  · exact tag ..
  split
  · exact word ..
  cases defined : tryCppDef code l with
  | none => trivial
  | some d =>
      unfold tryCppDef at defined
      split at defined
      · cases defined
      · obtain ⟨i, _, found⟩ := List.exists_of_findSome?_eq_some defined
        exact name_of_cppDefAt found

theorem proper_classifyGo (code : Bytes) (l : Line) : (classifyGo code l).Proper := by
  have word : ∀ kind rest, (Found.ofSym (wordSym kind code l rest)).Proper := fun kind rest =>
    Found.proper_ofSym fun _ found => hasName_wordSym found
  unfold classifyGo
  dsimp only
  split
  · cases defined : goDefOf code l with
    | none => trivial
    | some d => exact name_of_goDefOf defined
  split
  · refine Found.proper_ofSym fun s found => ?_
    obtain ⟨t, declared, rfl⟩ := Option.map_eq_some_iff.mp found
    have named : t.HasName := hasName_wordSym declared
    exact ⟨named.1, named.2⟩
  split
  · exact word ..
  split
  · exact word ..
  · trivial

theorem name_of_mem_definitions {found : List Found} (proper : ∀ f ∈ found, f.Proper) {d : FuncDef}
    (member : d ∈ definitions found) : d.name ≠ [] := by
  obtain ⟨f, there, same⟩ := List.mem_filterMap.mp member
  split at same
  · cases same
    exact proper _ there
  · cases same

theorem hasName_of_mem_extras {found : List Found} (proper : ∀ f ∈ found, f.Proper) {s : Sym}
    (member : s ∈ extras found) : s.HasName := by
  obtain ⟨f, there, same⟩ := List.mem_filterMap.mp member
  split at same
  · cases same
    exact proper _ there
  · cases same

theorem hasName_cppSyms {code : Bytes} : ∀ s ∈ cppSyms code, s.HasName := by
  have proper : ∀ f ∈ foundCpp code, f.Proper := by
    intro f member
    obtain ⟨l, _, rfl⟩ := List.mem_map.mp member
    exact proper_classifyCpp code l
  intro s member
  unfold cppSyms at member
  obtain (defined | extra) | global := (List.mem_append.mp member).imp_left List.mem_append.mp
  · obtain ⟨d, there, rfl⟩ := List.mem_map.mp defined
    exact ⟨name_of_mem_definitions proper there, rfl⟩
  · exact hasName_of_mem_extras proper extra
  · obtain ⟨l, _, found⟩ := List.mem_filterMap.mp global
    exact hasName_globalOf found

theorem hasName_goSyms {src : Bytes} : ∀ s ∈ goSyms src, s.HasName := by
  have proper : ∀ f ∈ foundGo (maskCommentsAndStrings src), f.Proper := by
    intro f member
    obtain ⟨l, _, rfl⟩ := List.mem_map.mp member
    exact proper_classifyGo _ l
  intro s member
  unfold goSyms at member
  obtain (package | defined) | extra := (List.mem_append.mp member).imp_left List.mem_append.mp
  · obtain ⟨l, _, found⟩ := List.mem_filterMap.mp package
    unfold packageOf at found
    dsimp only at found
    split at found
    · exact hasName_wordSym found
    · cases found
  · obtain ⟨d, there, rfl⟩ := List.mem_map.mp defined
    exact ⟨name_of_mem_definitions proper there, rfl⟩
  · exact hasName_of_mem_extras proper extra

/-- Every symbol that is found has a name. -/
theorem hasName_of_found {lang : Lang} {file text : Bytes} {syms : List Sym} {deps : List Dep}
    (found : extractLang lang file text = .found syms deps) : ∀ s ∈ syms, s.HasName := by
  cases lang with
  | unknown => cases found
  | c | cpp =>
      simp only [extractLang, extractCpp] at found
      split at found
      · cases found
      · cases found
        exact hasName_cppSyms
  | go =>
      cases found
      exact hasName_goSyms

end Opencodepp.Graph
