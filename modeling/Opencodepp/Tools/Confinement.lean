import Mathlib.Logic.Relation
import Opencodepp.Tools.Sandbox

/-!
# What the sandbox lets through

`resolveInSandbox` gives the absolute name of a workspace path or nothing.  In the program it
is a function with an out parameter: it says whether the path is accepted and writes the name
only then.  This module states that function and what it accepts, in terms of the path alone.

A path is a sequence of segments, the pieces between separators.  A segment is a name, the
parent, or nothing at all (an empty piece or a single dot).  Rewriting a sequence drops what is
nothing and cancels a name against the parent that follows it; the normal forms are the
sequences of names.  `resolveInSandboxInto_confines` says that a relative path is accepted
exactly when no beginning of it climbs more often than it descends, that the name written is
the base followed by the normal form, and that a refused path leaves the out parameter alone.
-/

set_option autoImplicit false

namespace Opencodepp.Tools

open Opencodepp.Library

/-! ## The function with its out parameter -/

/-- The segments put together again, as the loop does it: a separator goes before a segment
when something is already there. -/
def relative (segments : List Bytes) : Bytes :=
  segments.foldl (fun rel s => (if rel ≠ [] then rel ++ [slash] else rel) ++ s) []

/-- The verdict on a path and the out parameter after the call. -/
def resolveInSandboxInto (base path out : Bytes) : Bool × Bytes :=
  if path = [] || path.head? = some slash then (false, out)
  else
    let walked := (tokens slash path).foldl sandboxStep ([], false)
    if walked.2 then (false, out) else (true, join base (relative walked.1))

/-! ## Segments -/

/-- The pieces of a path between separators, the empty ones included. -/
def segmentsOf (path : Bytes) : List Bytes := path.splitOn slash

/-- A segment that goes one directory up. -/
def isParent (s : Bytes) : Bool := s == str ".."

/-- A segment that goes one directory down. -/
def isName (s : Bytes) : Bool := isComponent s && !isParent s

/-- No beginning of the sequence has more parents than names. -/
def StaysInside (segments : List Bytes) : Prop :=
  ∀ front, front <+: segments → front.countP isParent ≤ front.countP isName

/-- One simplification of a sequence of segments. -/
inductive Simplifies : List Bytes → List Bytes → Prop
  | drop (before after : List Bytes) (s : Bytes) :
      isComponent s = false → Simplifies (before ++ s :: after) (before ++ after)
  | cancel (before after : List Bytes) (name parent : Bytes) :
      isName name = true → isParent parent = true →
        Simplifies (before ++ name :: parent :: after) (before ++ after)

/-- The sequence simplifies to one of names only. -/
def NormalForm (segments names : List Bytes) : Prop :=
  Relation.ReflTransGen Simplifies segments names ∧ ∀ s ∈ names, isName s = true

theorem isName_iff {s : Bytes} :
    isName s = true ↔ s ≠ [] ∧ s ≠ str "." ∧ s ≠ str ".." := by
  have dot : str "." = [0x2e] := by decide
  simp [isName, isComponent, isParent, dot, and_assoc]

/-! ## One step of the walk -/

theorem sandboxStep_of_not_component {s : Bytes} (skipped : isComponent s = false)
    (acc : List Bytes × Bool) : sandboxStep acc s = acc := by
  have dot : str "." = [0x2e] := by decide
  have nothing : s = [] ∨ s = [0x2e] := by
    by_cases empty : s = []
    · exact .inl empty
    · exact .inr (by simpa [isComponent, empty] using skipped)
  rcases nothing with rfl | rfl <;> simp [sandboxStep, dot]

theorem isComponent_of_isParent {s : Bytes} (parent : isParent s = true) :
    isComponent s = true := by
  have same : s = str ".." := by simpa [isParent] using parent
  rw [same]
  decide

theorem sandboxStep_of_parent_nil {s : Bytes} (parent : isParent s = true) (escaped : Bool) :
    sandboxStep ([], escaped) s = ([], true) := by
  have same : s = str ".." := by simpa [isParent] using parent
  have notDot : str ".." ≠ str "." := by decide
  have nonempty : str ".." ≠ [] := by decide
  simp [sandboxStep, same, notDot, nonempty]

theorem sandboxStep_of_parent_concat {s : Bytes} (parent : isParent s = true)
    (stack : List Bytes) (top : Bytes) (escaped : Bool) :
    sandboxStep (stack ++ [top], escaped) s = (stack, escaped) := by
  have same : s = str ".." := by simpa [isParent] using parent
  have notDot : str ".." ≠ str "." := by decide
  have nonempty : str ".." ≠ [] := by decide
  simp [sandboxStep, same, notDot, nonempty]

theorem sandboxStep_of_name {s : Bytes} (name : isName s = true) (acc : List Bytes × Bool) :
    sandboxStep acc s = (acc.1 ++ [s], acc.2) := by
  obtain ⟨nonempty, notDot, notParent⟩ := isName_iff.mp name
  simp [sandboxStep, nonempty, notDot, notParent]

/-- Every segment is nothing, the parent or a name. -/
theorem segment_cases (s : Bytes) :
    isComponent s = false ∨ isParent s = true ∨ isName s = true := by
  cases component : isComponent s with
  | false => exact .inl rfl
  | true =>
      cases parent : isParent s with
      | true => exact .inr (.inl rfl)
      | false => exact .inr (.inr (by simp [isName, component, parent]))

theorem not_name_of_not_component {s : Bytes} (skipped : isComponent s = false) :
    isName s = false := by
  simp [isName, skipped]

theorem not_parent_of_not_component {s : Bytes} (skipped : isComponent s = false) :
    isParent s = false := by
  cases parent : isParent s with
  | false => rfl
  | true => rw [isComponent_of_isParent parent] at skipped; cases skipped

theorem not_parent_of_name {s : Bytes} (name : isName s = true) : isParent s = false := by
  cases parent : isParent s with
  | false => rfl
  | true => simp [isName, parent] at name

theorem not_name_of_parent {s : Bytes} (parent : isParent s = true) : isName s = false := by
  simp [isName, parent]

/-! ## The whole walk -/

/-- Empty pieces do nothing, so the walk may as well meet them. -/
theorem walk_tokens (path : Bytes) (acc : List Bytes × Bool) :
    (tokens slash path).foldl sandboxStep acc = (segmentsOf path).foldl sandboxStep acc := by
  unfold tokens segmentsOf
  rw [List.foldl_filter]
  congr 1
  funext reached s
  by_cases empty : s = []
  · simp [empty, sandboxStep]
  · simp [empty]

/-- Having escaped once is never forgotten. -/
theorem walk_escaped (segments : List Bytes) : ∀ stack : List Bytes,
    (segments.foldl sandboxStep (stack, true)).2 = true := by
  induction segments with
  | nil => intro stack; rfl
  | cons s rest inductionHypothesis =>
      intro stack
      rw [List.foldl_cons]
      rcases segment_cases s with skipped | parent | name
      · rw [sandboxStep_of_not_component skipped]
        exact inductionHypothesis stack
      · rcases List.eq_nil_or_concat stack with rfl | ⟨front, top, rfl⟩
        · rw [sandboxStep_of_parent_nil parent]
          exact inductionHypothesis []
        · rw [List.concat_eq_append, sandboxStep_of_parent_concat parent]
          exact inductionHypothesis front
      · rw [sandboxStep_of_name name]
        exact inductionHypothesis _

/-- A property of every beginning, taken apart at the first element. -/
theorem forall_prefix_cons {α : Type} {property : List α → Prop} {a : α} {rest : List α} :
    (∀ front, front <+: a :: rest → property front) ↔
      property [] ∧ ∀ front, front <+: rest → property (a :: front) := by
  constructor
  · intro all
    exact ⟨all [] List.nil_prefix, fun front starts =>
      all (a :: front) (List.cons_prefix_cons.mpr ⟨rfl, starts⟩)⟩
  · rintro ⟨empty, others⟩ front starts
    rcases List.prefix_cons_iff.mp starts with rfl | ⟨shorter, rfl, inner⟩
    · exact empty
    · exact others shorter inner

/-- The walk from a stack escapes unless every beginning pops no more than is there. -/
theorem walk_stays_iff (segments : List Bytes) : ∀ stack : List Bytes,
    (segments.foldl sandboxStep (stack, false)).2 = false ↔
      ∀ front, front <+: segments →
        front.countP isParent ≤ stack.length + front.countP isName := by
  induction segments with
  | nil =>
      intro stack
      simp
  | cons s rest inductionHypothesis =>
      intro stack
      rw [List.foldl_cons, forall_prefix_cons]
      rcases segment_cases s with skipped | parent | name
      · rw [sandboxStep_of_not_component skipped, inductionHypothesis stack]
        simp [not_name_of_not_component skipped, not_parent_of_not_component skipped]
      · rcases List.eq_nil_or_concat stack with rfl | ⟨front, top, rfl⟩
        · -- the parent of the base: the beginning that ends here already climbs out
          rw [sandboxStep_of_parent_nil parent, walk_escaped]
          constructor
          · intro impossible
            cases impossible
          · rintro ⟨-, others⟩
            have alone := others [] List.nil_prefix
            simp [parent, not_name_of_parent parent] at alone
        · rw [List.concat_eq_append, sandboxStep_of_parent_concat parent,
            inductionHypothesis front]
          simp only [List.countP_cons, parent, not_name_of_parent parent, List.countP_nil,
            List.length_append, List.length_singleton]
          constructor
          · intro all
            exact ⟨Nat.zero_le _, fun beginning starts => by
              have bound := all beginning starts
              simp
              omega⟩
          · rintro ⟨-, all⟩ beginning starts
            have bound := all beginning starts
            simp at bound
            omega
      · rw [sandboxStep_of_name name, inductionHypothesis]
        simp only [List.countP_cons, name, not_parent_of_name name, List.countP_nil,
          List.length_append, List.length_singleton]
        constructor
        · intro all
          exact ⟨Nat.zero_le _, fun beginning starts => by
            have bound := all beginning starts
            simp
            omega⟩
        · rintro ⟨-, all⟩ beginning starts
          have bound := all beginning starts
          simp at bound
          omega

/-- A walk that never escapes is a simplification of the stack followed by the segments. -/
theorem walk_simplifies (segments : List Bytes) : ∀ stack : List Bytes,
    (∀ s ∈ stack, isName s = true) →
      (segments.foldl sandboxStep (stack, false)).2 = false →
        Relation.ReflTransGen Simplifies (stack ++ segments)
          (segments.foldl sandboxStep (stack, false)).1 := by
  induction segments with
  | nil =>
      intro stack _ _
      rw [List.append_nil]
      exact .refl
  | cons s rest inductionHypothesis =>
      intro stack names stays
      rw [List.foldl_cons] at stays ⊢
      rcases segment_cases s with skipped | parent | name
      · rw [sandboxStep_of_not_component skipped] at stays ⊢
        exact .head (.drop stack rest s skipped) (inductionHypothesis stack names stays)
      · rcases List.eq_nil_or_concat stack with rfl | ⟨front, top, rfl⟩
        · rw [sandboxStep_of_parent_nil parent, walk_escaped] at stays
          cases stays
        · rw [List.concat_eq_append] at names stays ⊢
          rw [sandboxStep_of_parent_concat parent] at stays ⊢
          have topName : isName top = true := names top (by simp)
          have frontNames : ∀ t ∈ front, isName t = true := fun t member =>
            names t (List.mem_append_left _ member)
          rw [List.append_assoc, List.singleton_append]
          exact .head (.cancel front rest top s topName parent)
            (inductionHypothesis front frontNames stays)
      · rw [sandboxStep_of_name name] at stays ⊢
        have pushedNames : ∀ t ∈ stack ++ [s], isName t = true := by
          intro t member
          rcases List.mem_append.mp member with inStack | isTop
          · exact names t inStack
          · rw [List.mem_singleton.mp isTop]
            exact name
        have simplified := inductionHypothesis (stack ++ [s]) pushedNames stays
        rwa [List.append_assoc, List.singleton_append] at simplified

/-- The walk keeps only names, and only such as it met. -/
theorem mem_walk (segments : List Bytes) : ∀ acc : List Bytes × Bool, ∀ s,
    s ∈ (segments.foldl sandboxStep acc).1 → s ∈ acc.1 ∨ (s ∈ segments ∧ isName s = true) := by
  induction segments with
  | nil =>
      intro acc s member
      exact .inl member
  | cons t rest inductionHypothesis =>
      intro acc s member
      rw [List.foldl_cons] at member
      rcases inductionHypothesis _ s member with before | ⟨later, name⟩
      · rcases segment_cases t with skipped | parent | name
        · rw [sandboxStep_of_not_component skipped] at before
          exact .inl before
        · obtain ⟨stack, escaped⟩ := acc
          rcases List.eq_nil_or_concat stack with rfl | ⟨front, top, rfl⟩
          · rw [sandboxStep_of_parent_nil parent] at before
            exact .inl before
          · rw [List.concat_eq_append, sandboxStep_of_parent_concat parent] at before
            exact .inl (by simp [before])
        · rw [sandboxStep_of_name name] at before
          rcases List.mem_append.mp before with inStack | isNew
          · exact .inl inStack
          · rw [List.mem_singleton.mp isNew]
            exact .inr ⟨List.mem_cons_self .., name⟩
      · exact .inr ⟨List.mem_cons_of_mem _ later, name⟩

/-- A simplification does not change what a walk makes of a sequence. -/
theorem walk_of_simplifies {segments simpler : List Bytes} (step : Simplifies segments simpler)
    (acc : List Bytes × Bool) :
    segments.foldl sandboxStep acc = simpler.foldl sandboxStep acc := by
  cases step with
  | drop before after s skipped =>
      rw [List.foldl_append, List.foldl_cons, sandboxStep_of_not_component skipped,
        List.foldl_append]
  | cancel before after name parent isNamed climbs =>
      rw [List.foldl_append, List.foldl_cons, List.foldl_cons, sandboxStep_of_name isNamed,
        sandboxStep_of_parent_concat climbs, List.foldl_append]

theorem walk_names {names : List Bytes} (all : ∀ s ∈ names, isName s = true) :
    ∀ acc : List Bytes × Bool, names.foldl sandboxStep acc = (acc.1 ++ names, acc.2) := by
  induction names with
  | nil =>
      intro acc
      simp
  | cons s rest inductionHypothesis =>
      intro acc
      rw [List.foldl_cons, sandboxStep_of_name (all s (List.mem_cons_self ..)),
        inductionHypothesis fun t member => all t (List.mem_cons_of_mem _ member)]
      simp

/-- A sequence has at most one normal form, the one the walk finds. -/
theorem NormalForm.eq_walk {segments names : List Bytes} (normal : NormalForm segments names) :
    names = (segments.foldl sandboxStep ([], false)).1 := by
  obtain ⟨simplified, all⟩ := normal
  have same : segments.foldl sandboxStep ([], false) = names.foldl sandboxStep ([], false) := by
    clear all
    induction simplified with
    | refl => rfl
    | tail _ step inductionHypothesis =>
        rw [inductionHypothesis, walk_of_simplifies step]
  rw [same, walk_names all]
  rfl

/-! ## The name that is written -/

/-- The loop that puts segments together is joining them by the separator. -/
theorem relative_eq_intercalate {segments : List Bytes} (proper : ∀ s ∈ segments, s ≠ []) :
    relative segments = [slash].intercalate segments := by
  have loop : ∀ (rest : List Bytes) (rel : Bytes), rel ≠ [] → (∀ s ∈ rest, s ≠ []) →
      rest.foldl (fun rel s => (if rel ≠ [] then rel ++ [slash] else rel) ++ s) rel =
        [slash].intercalate (rel :: rest) := by
    intro rest
    induction rest with
    | nil =>
        intro rel _ _
        simp
    | cons s others inductionHypothesis =>
        intro rel started properRest
        rw [List.foldl_cons, if_pos started, inductionHypothesis _ (by simp)
          (fun t member => properRest t (List.mem_cons_of_mem _ member))]
        cases others with
        | nil => simp [List.intercalate]
        | cons next others => simp [List.intercalate]
  cases segments with
  | nil => rfl
  | cons first rest =>
      have started := proper first (List.mem_cons_self ..)
      unfold relative
      rw [List.foldl_cons]
      simpa using loop rest first started fun t member => proper t (List.mem_cons_of_mem _ member)

theorem tokens_intercalate {names : List Bytes} (proper : ∀ s ∈ names, s ≠ [])
    (plain : ∀ s ∈ names, slash ∉ s) : tokens slash ([slash].intercalate names) = names := by
  by_cases none : names = []
  · simp [none]
  · unfold tokens
    rw [List.splitOn_intercalate slash plain none, List.filter_eq_self]
    intro s member
    simpa using proper s member

/-- The pieces of a joined path are those of its two parts. -/
theorem tokens_join (base rel : Bytes) :
    tokens slash (join base rel) = tokens slash base ++ tokens slash rel := by
  unfold join
  split
  · exact tokens_append_separator slash base rel
  · next plain =>
      by_cases emptyRel : rel = []
      · simp [emptyRel]
      · rcases List.eq_nil_or_concat base with empty | ⟨front, last, shape⟩
        · simp [empty]
        · have endsInSlash : last = slash := by simpa [shape, emptyRel] using plain
          have closed : tokens slash (front ++ [slash]) = tokens slash front := by
            simpa using tokens_append_separator slash front []
          rw [shape, endsInSlash, List.concat_eq_append, closed, List.append_assoc,
            List.singleton_append, tokens_append_separator]

theorem base_prefix_join (base rel : Bytes) : base <+: join base rel := by
  unfold join
  split <;> exact List.prefix_append ..

/-- The two forms of the function agree. -/
theorem resolveInSandboxInto_eq (base path out : Bytes) :
    resolveInSandboxInto base path out =
      ((resolveInSandbox base path).isSome, (resolveInSandbox base path).getD out) := by
  have proper : ∀ s ∈ ((tokens slash path).foldl sandboxStep ([], false)).1, s ≠ [] := by
    intro s member
    rcases mem_walk _ _ s member with impossible | ⟨-, name⟩
    · cases impossible
    · exact (isName_iff.mp name).1
  simp only [resolveInSandboxInto, resolveInSandbox, relative_eq_intercalate proper]
  split
  · rfl
  · split <;> rfl

/-- **The sandbox accepts a path exactly when it is relative and never climbs out, and then
names the base followed by the normal form of its segments.** -/
theorem resolveInSandboxInto_confines (base path out : Bytes) :
    ((resolveInSandboxInto base path out).1 = true ↔
      path ≠ [] ∧ path.head? ≠ some slash ∧ StaysInside (segmentsOf path)) ∧
    ((resolveInSandboxInto base path out).1 = true →
      ∃ names, NormalForm (segmentsOf path) names ∧
        (∀ other, NormalForm (segmentsOf path) other → other = names) ∧
        (∀ s ∈ names, s ≠ [] ∧ s ≠ str "." ∧ s ≠ str ".." ∧ slash ∉ s) ∧
        (resolveInSandboxInto base path out).2 = join base ([slash].intercalate names) ∧
        base <+: (resolveInSandboxInto base path out).2 ∧
        tokens slash (resolveInSandboxInto base path out).2 = tokens slash base ++ names) ∧
    ((resolveInSandboxInto base path out).1 = false →
      (resolveInSandboxInto base path out).2 = out) := by
  have stays := walk_stays_iff (segmentsOf path) []
  simp only [List.length_nil, Nat.zero_add] at stays
  have simplifies := walk_simplifies (segmentsOf path) [] (by simp)
  have met := mem_walk (segmentsOf path) ([], false)
  have only : ∀ other, NormalForm (segmentsOf path) other →
      other = ((segmentsOf path).foldl sandboxStep ([], false)).1 := fun _ normal =>
    normal.eq_walk
  simp only [resolveInSandboxInto, walk_tokens]
  generalize (segmentsOf path).foldl sandboxStep ([], false) = walked
    at stays simplifies met only ⊢
  obtain ⟨names, escaped⟩ := walked
  by_cases refused : path = [] || path.head? = some slash
  · have absolute : path = [] ∨ path.head? = some slash := by simpa using refused
    refine ⟨?_, ?_, ?_⟩ <;> simp [refused]
    exact fun nonempty isRelative => absurd (absolute.resolve_left nonempty) isRelative
  · have isRelative : path ≠ [] ∧ path.head? ≠ some slash := by simpa using refused
    cases escaped with
    | true =>
        refine ⟨?_, ?_, ?_⟩ <;> simp [refused]
        exact fun _ _ inside => by simpa using stays.mpr inside
    | false =>
        have proper : ∀ s ∈ names, isName s = true ∧ slash ∉ s := by
          intro s member
          rcases met s member with impossible | ⟨inPath, name⟩
          · cases impossible
          · exact ⟨name, slash_notMem_of_mem_splitOn inPath⟩
        have nonempty : ∀ s ∈ names, s ≠ [] := fun s member =>
          (isName_iff.mp (proper s member).1).1
        have written := relative_eq_intercalate nonempty
        have pieces := tokens_intercalate nonempty fun s member => (proper s member).2
        refine ⟨?_, fun _ => ⟨names, ⟨simplifies rfl, fun s member => (proper s member).1⟩,
          only, ?_, ?_, ?_, ?_⟩, ?_⟩
        · have inside : StaysInside (segmentsOf path) := stays.mp rfl
          simp [isRelative, inside]
        · intro s member
          obtain ⟨notEmpty, notDot, notParent⟩ := isName_iff.mp (proper s member).1
          exact ⟨notEmpty, notDot, notParent, (proper s member).2⟩
        · simp [refused, written]
        · simpa [refused] using base_prefix_join base (relative names)
        · simp [refused, written, tokens_join, pieces]
        · simp [refused]

end Opencodepp.Tools
