import Mathlib.Data.List.Nodup
import Mathlib.Tactic.NormNum
import Opencodepp.Config.Load

/-!
# What a load makes of a configuration

A section depends on what the configuration held under it and on the text, and is written there
alone, so that a load that ends with an error leaves the sections behind the bad one as they were.
The ones before it are those of the text, and the bad one holds what was read of it.  Whatever was
valid stays valid, but for the order of the two backoffs in a bad network section
(`load_outcome`).
-/

set_option autoImplicit false

namespace Opencodepp.Config

open Opencodepp.Core
open Opencodepp.Library
open Opencodepp.Util

/-! ## Valid configurations -/

/-- A field is within its bounds. -/
def Between (lo hi : Nat) (x : UInt32) : Prop := lo ≤ x.toNat ∧ x.toNat ≤ hi

instance (lo hi : Nat) (x : UInt32) : Decidable (Between lo hi x) :=
  inferInstanceAs (Decidable (_ ∧ _))

/-- Every provider has an id of its own. -/
structure ValidProviders (providers : List ProviderCfg) : Prop where
  named : ∀ p ∈ providers, p.id ≠ []
  distinct : (providers.map ProviderCfg.id).Nodup

/-- Every agent has an id of its own and a model. -/
structure ValidAgents (agents : List AgentCfg) : Prop where
  named : ∀ a ∈ agents, a.id ≠ []
  distinct : (agents.map AgentCfg.id).Nodup
  modelled : ∀ a ∈ agents, a.model ≠ []
  capped : ∀ a ∈ agents, Between 0 100000000 a.maxTokens

/-- The fields of the network are within their bounds. -/
structure NetworkRanges (n : NetworkCfg) : Prop where
  timeoutMs : Between 1 3600000 n.timeoutMs
  maxRetries : Between 0 20 n.maxRetries
  backoffBaseMs : Between 0 60000 n.backoffBaseMs
  backoffMaxMs : Between 0 600000 n.backoffMaxMs
  jitter : 0 ≤ n.jitter ∧ n.jitter < 1

structure ValidNetwork (n : NetworkCfg) : Prop extends NetworkRanges n where
  backoff : n.backoffBaseMs ≤ n.backoffMaxMs

def ValidBudget (b : BudgetCfg) : Prop := Between 1000 10000000 b.maxTokensPerTask

structure ValidMemory (m : MemoryCfg) : Prop where
  maxValueChars : Between 1 100000 m.maxValueChars
  maxKeyChars : Between 1 1000 m.maxKeyChars
  maxEntries : Between 1 1000000 m.maxEntries
  maxEntriesPerTask : Between 1 1000 m.maxEntriesPerTask
  maxEntryTokens : Between 1 100000 m.maxEntryTokens

structure Valid (cfg : Config) : Prop where
  providers : ValidProviders cfg.providers
  agents : ValidAgents cfg.agents
  network : ValidNetwork cfg.network
  budget : ValidBudget cfg.budget
  memory : ValidMemory cfg.memory

/-- The defaults are valid. -/
theorem valid_default : Valid {} where
  providers := ⟨by simp, List.nodup_nil⟩
  agents := ⟨by simp, List.nodup_nil, by simp, by simp⟩
  network := ⟨⟨by decide, by decide, by decide, by decide, by norm_num⟩, by decide⟩
  budget := by unfold ValidBudget; decide
  memory := ⟨by decide, by decide, by decide, by decide, by decide⟩

/-! ## Values -/

theorem getStr_nonempty {obj : JVal} {key : String} {path s : Bytes} {c c' : Ctx}
    (got : getStr obj key path true c = (some s, c')) : s ≠ [] := by
  unfold getStr at got
  split at got
  · cases got
  · split at got
    · cases got
    · next t _ some_ =>
        cases got
        rintro rfl
        exact some_ rfl
  · cases got

/-- A number that is read is one that the field accepts. -/
theorem getNumber_accepted {accepts : Rat → Bool} {obj : JVal} {key : String} {path : Bytes}
    {c c' : Ctx} {d : Rat} (got : getNumber accepts obj key path c = (some d, c')) :
    accepts d = true := by
  unfold getNumber at got
  split at got
  · cases got
  · split at got
    · next accepted =>
        cases got
        exact accepted
    · cases got
  · cases got

/-- A field that is within its bounds stays so. -/
theorem intField_between {obj : JVal} {key : String} {path : Bytes} {lo hi : Nat} {old : UInt32}
    (small : hi < 2 ^ 32) (before : Between lo hi old) (c : Ctx) :
    Between lo hi (intField obj key path lo hi old c).1 := by
  unfold intField getInt
  dsimp only
  generalize reading : getNumber _ obj key path c = got
  obtain ⟨d, c'⟩ := got
  cases d with
  | none => exact before
  | some d =>
      have accepted := getNumber_accepted reading
      simp only [Bool.and_eq_true, decide_eq_true_eq] at accepted
      obtain ⟨⟨whole, above⟩, below⟩ := accepted
      have value : d = (d.num : Rat) := (Rat.coe_int_num_of_den_eq_one whole).symm
      rw [value] at above below
      have above' : (lo : Int) ≤ d.num := by exact_mod_cast above
      have below' : d.num ≤ (hi : Int) := by exact_mod_cast below
      show Between lo hi (UInt32.ofNat d.num.toNat)
      unfold Between
      rw [UInt32.toNat_ofNat', Nat.mod_eq_of_lt (by omega)]
      omega

theorem maxJitter_lt : maxJitter < 1 := by
  have value : maxJitter = mkRat 8917127262193582 9007199254740992 := by decide +kernel
  rw [value]
  norm_num

/-! ## Lists -/

/-- What one element keeps, a list keeps. -/
theorem loadElements_keeps {α : Type} {P : List α → Prop}
    {load : Nat → JVal → List α × Ctx → List α × Ctx}
    (keeps : ∀ i e s, P s.1 → P (load i e s).1) (arr : List JVal) :
    ∀ (i : Nat) (s : List α × Ctx), P s.1 → P (loadElements load i arr s).1 := by
  induction arr with
  | nil => exact fun i s holds => holds
  | cons e rest inductionHypothesis =>
      intro i s holds
      unfold loadElements
      split
      · exact holds
      · exact inductionHypothesis (i + 1) _ (keeps i e s holds)

theorem loadList_keeps {α : Type} {P : List α → Prop} {key : String}
    {load : Nat → JVal → List α × Ctx → List α × Ctx} (empty : P [])
    (keeps : ∀ i e s, P s.1 → P (load i e s).1) (root : JVal) {old : List α} (c : Ctx)
    (holds : P old) : P (loadList key load root old c).1 := by
  unfold loadList
  split
  · exact holds
  · exact loadElements_keeps keeps _ 0 _ empty
  · exact holds

theorem ValidProviders.push {providers : List ProviderCfg} {pc : ProviderCfg}
    (valid : ValidProviders providers) (named : pc.id ≠ [])
    (new : hasProviderId providers pc.id = false) : ValidProviders (providers ++ [pc]) where
  named p member := by
    rcases List.mem_append.mp member with before | last
    · exact valid.named p before
    · rw [List.mem_singleton.mp last]
      exact named
  distinct := by
    rw [List.map_append, List.nodup_append]
    refine ⟨valid.distinct, by simp, fun id member id' last => ?_⟩
    obtain ⟨p, inside, rfl⟩ := List.mem_map.mp member
    have other := List.any_eq_false.mp new p inside
    rw [List.mem_singleton.mp last]
    simpa using other

theorem loadProvider_keeps (i : Nat) (e : JVal) (s : List ProviderCfg × Ctx)
    (valid : ValidProviders s.1) : ValidProviders (loadProvider i e s).1 := by
  unfold loadProvider
  dsimp only
  split
  · split
    · exact valid
    · next id c reading =>
        split
        · exact valid
        · next new =>
            split
            · exact valid
            · exact valid.push (getStr_nonempty reading) (Bool.eq_false_iff.mpr new)
  · exact valid

theorem ValidAgents.push {agents : List AgentCfg} {ac : AgentCfg} (valid : ValidAgents agents)
    (named : ac.id ≠ []) (new : hasAgentId agents ac.id = false) (modelled : ac.model ≠ [])
    (capped : Between 0 100000000 ac.maxTokens) : ValidAgents (agents ++ [ac]) where
  named a member := by
    rcases List.mem_append.mp member with before | last
    · exact valid.named a before
    · rw [List.mem_singleton.mp last]
      exact named
  distinct := by
    rw [List.map_append, List.nodup_append]
    refine ⟨valid.distinct, by simp, fun id member id' last => ?_⟩
    obtain ⟨a, inside, rfl⟩ := List.mem_map.mp member
    have other := List.any_eq_false.mp new a inside
    rw [List.mem_singleton.mp last]
    simpa using other
  modelled a member := by
    rcases List.mem_append.mp member with before | last
    · exact valid.modelled a before
    · rw [List.mem_singleton.mp last]
      exact modelled
  capped a member := by
    rcases List.mem_append.mp member with before | last
    · exact valid.capped a before
    · rw [List.mem_singleton.mp last]
      exact capped

theorem loadAgent_keeps (i : Nat) (e : JVal) (s : List AgentCfg × Ctx) (valid : ValidAgents s.1) :
    ValidAgents (loadAgent i e s).1 := by
  unfold loadAgent
  dsimp only
  split
  · split
    · exact valid
    · next id c reading =>
        split
        · exact valid
        · next new =>
            split
            · exact valid
            · next model c' model_ =>
                split
                · exact valid
                · exact valid.push (getStr_nonempty reading) (Bool.eq_false_iff.mpr new)
                    (getStr_nonempty model_) (intField_between (by decide) (by decide) c')
  · exact valid

/-! ## Objects -/

/-- What the fields of a section keep, the section keeps. -/
theorem loadObject_keeps {α : Type} {P : α → Prop} {key : String}
    {load : JVal → α → Ctx → α × Ctx} (keeps : ∀ v old c, P old → P (load v old c).1)
    (root : JVal) {old : α} (c : Ctx) (holds : P old) :
    P (loadObject key load root old c).1 := by
  unfold loadObject
  split
  · exact holds
  · exact keeps _ old c holds
  · exact holds

theorem networkFields_keeps (n : JVal) (out : NetworkCfg) (c : Ctx) (ranges : NetworkRanges out) :
    NetworkRanges (networkFields n out c).1 where
  timeoutMs := intField_between (by decide) ranges.timeoutMs _
  maxRetries := intField_between (by decide) ranges.maxRetries _
  backoffBaseMs := intField_between (by decide) ranges.backoffBaseMs _
  backoffMaxMs := intField_between (by decide) ranges.backoffMaxMs _
  jitter := by
    unfold networkFields getDouble
    dsimp only
    generalize reading : getNumber _ n "jitter" _ _ = got
    obtain ⟨d, c'⟩ := got
    cases d with
    | none => exact ranges.jitter
    | some d =>
        have accepted := getNumber_accepted reading
        simp only [Bool.and_eq_true, decide_eq_true_eq] at accepted
        exact ⟨accepted.1, lt_of_le_of_lt accepted.2 maxJitter_lt⟩

/-- A network section that is accepted has its backoffs in order. -/
theorem loadNetwork_backoff {root : JVal} {old : NetworkCfg} {c : Ctx}
    (accepted : (loadNetwork root old c).2.failed = false)
    (before : old.backoffBaseMs ≤ old.backoffMaxMs) :
    (loadNetwork root old c).1.backoffBaseMs ≤ (loadNetwork root old c).1.backoffMaxMs := by
  unfold loadNetwork loadObject at accepted ⊢
  split at accepted
  · exact before
  · unfold networkFields at accepted ⊢
    dsimp only at accepted ⊢
    split at accepted
    · cases accepted
    · next order => exact UInt32.not_lt.mp order
  · exact before

theorem memoryFields_keeps (m : JVal) (out : MemoryCfg) (c : Ctx) (valid : ValidMemory out) :
    ValidMemory (memoryFields m out c).1 where
  maxValueChars := intField_between (by decide) valid.maxValueChars _
  maxKeyChars := intField_between (by decide) valid.maxKeyChars _
  maxEntries := intField_between (by decide) valid.maxEntries _
  maxEntriesPerTask := intField_between (by decide) valid.maxEntriesPerTask _
  maxEntryTokens := intField_between (by decide) valid.maxEntryTokens _

/-! ## Sections -/

/-- What a configuration holds for a section. -/
def Section.Value : Section → Type
  | .schema => Unit
  | .providers => List ProviderCfg
  | .agents => List AgentCfg
  | .network => NetworkCfg
  | .budget => BudgetCfg
  | .memory => MemoryCfg
  | .dataDir => Bytes
  | .contextPaths => List Bytes
  | .edgeMode => Bool

def held (cfg : Config) : (name : Section) → name.Value
  | .schema => ()
  | .providers => cfg.providers
  | .agents => cfg.agents
  | .network => cfg.network
  | .budget => cfg.budget
  | .memory => cfg.memory
  | .dataDir => cfg.dataDir
  | .contextPaths => cfg.contextPaths
  | .edgeMode => cfg.edgeMode

/-- What a text makes of the value of a section. -/
def loadValue (root : JVal) : (name : Section) → name.Value → Ctx → name.Value × Ctx
  | .schema => fun _ c => ((), loadSchema root c)
  | .providers => loadProviders root
  | .agents => loadAgents root
  | .network => loadNetwork root
  | .budget => loadBudget root
  | .memory => loadMemory root
  | .dataDir => loadDataDir root
  | .contextPaths => loadContextPaths root
  | .edgeMode => loadEdgeMode root

/-- The value of a section is valid. -/
def ValidUnder : (name : Section) → name.Value → Prop
  | .providers => ValidProviders
  | .agents => ValidAgents
  | .network => ValidNetwork
  | .budget => ValidBudget
  | .memory => ValidMemory
  | .schema | .dataDir | .contextPaths | .edgeMode => fun _ => True

theorem valid_iff {cfg : Config} : Valid cfg ↔ ∀ name, ValidUnder name (cfg.held name) := by
  constructor
  · rintro ⟨providers, agents, network, budget, memory⟩ name
    cases name <;> first | assumption | trivial
  · exact fun valid => ⟨valid .providers, valid .agents, valid .network, valid .budget,
      valid .memory⟩

/-- A section is read on its own. -/
theorem loadSection_held (root : JVal) (out : Config) (c : Ctx) (name : Section) :
    (loadSection root out c name).1.held name = (loadValue root name (out.held name) c).1 ∧
      (loadSection root out c name).2 = (loadValue root name (out.held name) c).2 := by
  cases name <;> exact ⟨rfl, rfl⟩

/-- A section is written under its name alone. -/
theorem loadSection_other (root : JVal) (out : Config) (c : Ctx) {name other : Section}
    (differ : other ≠ name) : (loadSection root out c name).1.held other = out.held other := by
  cases name <;> cases other <;> first | exact absurd rfl differ | rfl

/-- A section stays valid; a network section only where it is accepted. -/
theorem loadValue_valid {root : JVal} {c : Ctx} {name : Section} {old : name.Value}
    (valid : ValidUnder name old)
    (accepted : name = .network → (loadValue root name old c).2.failed = false) :
    ValidUnder name (loadValue root name old c).1 := by
  cases name with
  | providers =>
      exact loadList_keeps ⟨by simp, List.nodup_nil⟩ loadProvider_keeps root c valid
  | agents =>
      exact loadList_keeps ⟨by simp, List.nodup_nil, by simp, by simp⟩ loadAgent_keeps root c valid
  | network =>
      exact ⟨loadObject_keeps networkFields_keeps root c valid.toNetworkRanges,
        loadNetwork_backoff (accepted rfl) valid.backoff⟩
  | budget =>
      exact @loadObject_keeps _ ValidBudget _ budgetFields
        (fun _ _ _ valid => intField_between (by decide) valid _) root _ c valid
  | memory => exact loadObject_keeps memoryFields_keeps root c valid
  | schema | dataDir | contextPaths | edgeMode => trivial

/-! ## Whole texts -/

/-- What is held for a section is what a text makes of the old value, beside what was logged
before. -/
def Read (root : JVal) (out new : Config) (accepted : Bool) (name : Section) : Prop :=
  ∃ c, c.failed = false ∧ new.held name = (loadValue root name (out.held name) c).1 ∧
    (loadValue root name (out.held name) c).2.failed = !accepted

theorem Read.valid {root : JVal} {out new : Config} {accepted : Bool} {name : Section}
    (read : Read root out new accepted name) (valid : ValidUnder name (out.held name))
    (whole : name = .network → accepted = true) : ValidUnder name (new.held name) := by
  obtain ⟨c, -, value, failed⟩ := read
  rw [value]
  refine loadValue_valid valid fun network => ?_
  rw [failed, whole network]
  rfl

/-- How far several sections were read: all of them, or up to a bad one. -/
inductive ReadUpTo (root : JVal) (out new : Config) (names : List Section) : Bool → Prop
  | whole (read : ∀ name ∈ names, Read root out new true name) : ReadUpTo root out new names false
  | partway (before : List Section) (bad : Section) (after : List Section)
      (split : names = before ++ bad :: after)
      (read : ∀ name ∈ before, Read root out new true name)
      (failing : Read root out new false bad)
      (left : ∀ name ∈ after, new.held name = out.held name) : ReadUpTo root out new names true

/-- A section that is accepted before others. -/
theorem ReadUpTo.cons {root : JVal} {out next new : Config} {first : Section}
    {rest : List Section} {failed : Bool} (here : Read root out new true first)
    (kept : ∀ name ∈ rest, next.held name = out.held name)
    (upTo : ReadUpTo root next new rest failed) :
    ReadUpTo root out new (first :: rest) failed := by
  have later {accepted : Bool} {name : Section} (member : name ∈ rest)
      (read : Read root next new accepted name) : Read root out new accepted name := by
    obtain ⟨c, fresh, value, ended⟩ := read
    rw [kept name member] at value ended
    exact ⟨c, fresh, value, ended⟩
  cases upTo with
  | whole read =>
      exact .whole (List.forall_mem_cons.mpr
        ⟨here, fun name member => later member (read name member)⟩)
  | partway before bad after split read failing left =>
      subst split
      refine .partway (first :: before) bad after rfl ?_ ?_ fun name member => ?_
      · exact List.forall_mem_cons.mpr ⟨here, fun name member =>
          later (List.mem_append_left _ member) (read name member)⟩
      · exact later (by simp) failing
      · rw [left name member, kept name (by simp [member])]

/-- Sections are read one after the other, and the others are left. -/
theorem readUpTo_loadSections (root : JVal) : ∀ (names : List Section) (out : Config) (c : Ctx),
    names.Nodup → c.failed = false →
      ReadUpTo root out (loadSections root names (out, c)).1 names
          (loadSections root names (out, c)).2.failed ∧
        ∀ name, name ∉ names →
          (loadSections root names (out, c)).1.held name = out.held name := by
  intro names
  induction names with
  | nil =>
      intro out c _ fresh
      refine ⟨?_, fun _ _ => rfl⟩
      show ReadUpTo root out out [] c.failed
      rw [fresh]
      exact .whole fun name member => absurd member List.not_mem_nil
  | cons first rest inductionHypothesis =>
      intro out c distinct fresh
      obtain ⟨absent, distinct⟩ := List.nodup_cons.mp distinct
      obtain ⟨value, context⟩ := loadSection_held root out c first
      have kept (name : Section) (differ : name ≠ first) :
          (loadSection root out c first).1.held name = out.held name :=
        loadSection_other root out c differ
      unfold loadSections
      dsimp only
      generalize loadSection root out c first = next at value context kept ⊢
      obtain ⟨out', c'⟩ := next
      by_cases failed : c'.failed = true
      · rw [if_pos failed, failed]
        refine ⟨.partway [] first rest rfl (by simp) ⟨c, fresh, value, ?_⟩ fun name member => ?_,
          fun name outside => ?_⟩
        · rw [← context, failed]
          rfl
        · exact kept name fun same => absent (same ▸ member)
        · exact kept name fun same => outside (same ▸ List.mem_cons_self)
      · rw [if_neg failed]
        have passed := Bool.eq_false_iff.mpr failed
        obtain ⟨upTo, others⟩ := inductionHypothesis out' c' distinct passed
        have here : Read root out (loadSections root rest (out', c')).1 true first := by
          refine ⟨c, fresh, (others first absent).trans value, ?_⟩
          rw [← context, passed]
          rfl
        refine ⟨upTo.cons here fun name member => kept name fun same => absent (same ▸ member),
          fun name outside => ?_⟩
        rw [others name fun member => outside (List.mem_cons_of_mem _ member)]
        exact kept name fun same => outside (same ▸ List.mem_cons_self)

/-- What was valid stays so, but for a network section that is refused. -/
theorem ReadUpTo.valid {root : JVal} {out new : Config} {names : List Section} {failed : Bool}
    (upTo : ReadUpTo root out new names failed) {name : Section} (member : name ∈ names)
    (valid : ValidUnder name (out.held name)) (whole : name = .network → failed = false) :
    ValidUnder name (new.held name) := by
  cases upTo with
  | whole read => exact (read name member).valid valid fun _ => rfl
  | partway before bad after split read failing left =>
      subst split
      rcases List.mem_append.mp member with earlier | later
      · exact (read name earlier).valid valid fun _ => rfl
      · rcases List.mem_cons.mp later with rfl | behind
        · exact failing.valid valid fun network => absurd (whole network) (by decide)
        · rw [left name behind]
          exact valid

/-- What a load of a text leaves of a configuration, and whether it failed. -/
structure Outcome (text : Bytes) (out new : Config) (failed : Bool) : Prop where
  /-- A text that is no object leaves everything as it was. -/
  unread : (¬∃ obj, parseJson text = .ok (.object obj)) → failed = true ∧ new = out
  /-- An object is read section by section, and what comes behind a bad one is left. -/
  read : ∀ obj, parseJson text = .ok (.object obj) →
    ReadUpTo (.object obj) out new sectionOrder failed
  /-- A schema that is refused leaves everything as it was. -/
  schema : ∀ obj, parseJson text = .ok (.object obj) →
    (loadSchema (.object obj) ⟨[], none⟩).failed = true → failed = true ∧ new = out
  /-- Sections stay valid, but for the network where the load fails. -/
  kept : Valid out → ∀ name, name ≠ .network → ValidUnder name (new.held name)
  /-- A load without an error keeps the configuration valid. -/
  valid : Valid out → failed = false → Valid new

theorem loadConfigJson_object {text : Bytes} {obj : List (Bytes × JVal)}
    (parsed : parseJson text = .ok (.object obj)) (out : Config) :
    (loadConfigJson text out).1 = (loadSections (.object obj) sectionOrder (out, ⟨[], none⟩)).1 ∧
      (loadConfigJson text out).2.failed =
        (loadSections (.object obj) sectionOrder (out, ⟨[], none⟩)).2.failed := by
  unfold loadConfigJson
  rw [parsed]
  refine ⟨rfl, ?_⟩
  dsimp only
  split
  · rfl
  · rfl

/-- **What a load makes of a configuration.**  A section behind a bad one is left as it was, and
one before it is as the text has it; a load without an error keeps the configuration valid. -/
theorem load_outcome (text : Bytes) (out : Config) :
    Outcome text out (loadConfigJson text out).1 (loadConfigJson text out).2.failed := by
  by_cases object : ∃ obj, parseJson text = .ok (.object obj)
  · obtain ⟨obj, parsed⟩ := object
    obtain ⟨config, failed⟩ := loadConfigJson_object parsed out
    have upTo := (readUpTo_loadSections (.object obj) sectionOrder out ⟨[], none⟩ (by decide)
      rfl).1
    rw [← config, ← failed] at upTo
    have all (name : Section) : name ∈ sectionOrder := by cases name <;> decide
    refine ⟨fun none_ => absurd ⟨obj, parsed⟩ none_, fun obj' parsed' => ?_,
      fun obj' parsed' refused => ?_, fun valid name other => ?_, fun valid passed => ?_⟩
    · cases parsed.symm.trans parsed'
      exact upTo
    · cases parsed.symm.trans parsed'
      have first : loadSections (.object obj) sectionOrder (out, ⟨[], none⟩) =
          (out, loadSchema (.object obj) ⟨[], none⟩) := if_pos refused
      rw [config, failed, first]
      exact ⟨refused, rfl⟩
    · exact upTo.valid (all name) (valid_iff.mp valid name) fun network => absurd network other
    · exact valid_iff.mpr fun name =>
        upTo.valid (all name) (valid_iff.mp valid name) fun _ => passed
  · have left : (loadConfigJson text out).1 = out ∧
        (loadConfigJson text out).2.failed = true := by
      unfold loadConfigJson
      split
      · exact ⟨rfl, rfl⟩
      · next obj parsed => exact absurd ⟨obj, parsed⟩ object
      · exact ⟨rfl, rfl⟩
    rw [left.1, left.2]
    exact ⟨fun _ => ⟨rfl, rfl⟩, fun obj parsed => absurd ⟨obj, parsed⟩ object,
      fun obj parsed => absurd ⟨obj, parsed⟩ object, fun valid name _ => valid_iff.mp valid name,
      fun valid _ => valid⟩

/-- A configuration with one provider. -/
def oneProvider : Config := { providers := [⟨str "a", [], [], []⟩] }

/-- **A load that fails may have changed what it was given.**  The providers are gone when the
agents are found to be no list. -/
theorem failed_load_clears_providers :
    let text := str "\x7b\"providers\":[],\"agents\":5\x7d"
    (loadConfigJson text oneProvider).2.failed = true ∧
      (loadConfigJson text oneProvider).1.providers = [] ∧
      (loadConfigJson text oneProvider).1 ≠ oneProvider := by
  decide +kernel

end Opencodepp.Config
