import Opencodepp.Config.Schema
import Opencodepp.Util.Json

/-!
# Loading a configuration

A configuration is read from a JSON text, section by section in a fixed order.  A section is
written into the configuration as it is read, and the load ends with the first section that has a
bad value.  Keys that are not known are logged.
-/

set_option autoImplicit false

namespace Opencodepp.Config

open Opencodepp.Core
open Opencodepp.Library
open Opencodepp.Util

/-- What is logged. -/
inductive LogLine
  | parseFailed
  | rootNotObject
  | invalidField (path reason : Bytes)
  | olderSchema (version : Rat)
  | unknownKey (key : Bytes)
  deriving DecidableEq

/-- The lines logged so far and the first error. -/
structure Ctx where
  log : List LogLine
  err : Option Failure

namespace Ctx

def failed (c : Ctx) : Bool := c.err.isSome

def warn (c : Ctx) (line : LogLine) : Ctx := { c with log := c.log ++ [line] }

/-- Log a bad value; the first one is the error. -/
def invalid (c : Ctx) (path : Bytes) (why : String) : Ctx where
  log := c.log ++ [.invalidField path (str why)]
  err := some (c.err.getD (.of .eInvalidCfg))

end Ctx

/-! ## Values -/

def getStr (obj : JVal) (key : String) (path : Bytes) (requireNonempty : Bool) (c : Ctx) :
    Option Bytes × Ctx :=
  match obj.find (str key) with
  | none => (none, if requireNonempty then c.invalid path "missing required field" else c)
  | some (.string s) =>
      if requireNonempty && s.isEmpty then (none, c.invalid path "must not be empty")
      else (some s, c)
  | some _ => (none, c.invalid path "expected string")

/-- A number that a field accepts. -/
def getNumber (accepts : Rat → Bool) (obj : JVal) (key : String) (path : Bytes) (c : Ctx) :
    Option Rat × Ctx :=
  match obj.find (str key) with
  | none => (none, c)
  | some (.number d) => if accepts d then (some d, c) else (none, c.invalid path "out of range")
  | some _ => (none, c.invalid path "expected number")

/-- A whole number between two bounds. -/
def getInt (obj : JVal) (key : String) (path : Bytes) (lo hi : Nat) (c : Ctx) :
    Option Int × Ctx :=
  let (d, c) := getNumber (fun d => d.den = 1 && (lo : Rat) ≤ d && d ≤ (hi : Rat)) obj key path c
  (d.map Rat.num, c)

def getDouble (obj : JVal) (key : String) (path : Bytes) (lo hi : Rat) (c : Ctx) :
    Option Rat × Ctx :=
  getNumber (fun d => lo ≤ d && d ≤ hi) obj key path c

def getBool (obj : JVal) (key : String) (path : Bytes) (c : Ctx) : Option Bool × Ctx :=
  match obj.find (str key) with
  | none => (none, c)
  | some (.boolean b) => (some b, c)
  | some _ => (none, c.invalid path "expected boolean")

/-- A field of a section: the number that is given for it, or what it was before. -/
def intField (obj : JVal) (key : String) (path : Bytes) (lo hi : Nat) (old : UInt32) (c : Ctx) :
    UInt32 × Ctx :=
  let (v, c) := getInt obj key path lo hi c
  ((v.map fun v => UInt32.ofNat v.toNat).getD old, c)

/-! ## Sections -/

def kConfigSchemaVersion : Nat := 1

def loadSchema (root : JVal) (c : Ctx) : Ctx :=
  match root.find (str "schema") with
  | none => c
  | some (.number num) =>
      if (kConfigSchemaVersion : Rat) < num then
        c.invalid (str "schema") "version newer than supported"
      else if num < (kConfigSchemaVersion : Rat) then c.warn (.olderSchema num)
      else c
  | some _ => c.invalid (str "schema") "expected number"

/-- The path of an element of a list. -/
def elementPath (list : String) (i : Nat) : Bytes :=
  str list ++ str "[" ++ decimal i ++ str "]"

/-- The elements of a list, up to the first bad one. -/
def loadElements {α : Type} (load : Nat → JVal → List α × Ctx → List α × Ctx) :
    Nat → List JVal → List α × Ctx → List α × Ctx
  | _, [], s => s
  | i, e :: rest, s => if s.2.failed then s else loadElements load (i + 1) rest (load i e s)

/-- A list of a root, which takes the place of the old one. -/
def loadList {α : Type} (key : String) (load : Nat → JVal → List α × Ctx → List α × Ctx)
    (root : JVal) (old : List α) (c : Ctx) : List α × Ctx :=
  match root.find (str key) with
  | none => (old, c)
  | some (.array arr) => loadElements load 0 arr ([], c)
  | some _ => (old, c.invalid (str key) "expected array")

def hasProviderId (v : List ProviderCfg) (id : Bytes) : Bool := v.any (·.id = id)

def hasAgentId (v : List AgentCfg) (id : Bytes) : Bool := v.any (·.id = id)

def loadProvider (i : Nat) (e : JVal) (s : List ProviderCfg × Ctx) : List ProviderCfg × Ctx :=
  let (providers, c) := s
  let path := elementPath "providers" i
  match e with
  | .object _ =>
      match getStr e "id" path true c with
      | (none, c) => (providers, c)
      | (some id, c) =>
          if hasProviderId providers id then (providers, c.invalid path "duplicate provider id")
          else
            let (apiKey, c) := getStr e "api_key" path false c
            let (baseUrl, c) := getStr e "base_url" path false c
            let (defaultModel, c) := getStr e "default_model" path false c
            let pc : ProviderCfg :=
              ⟨id, apiKey.getD [], baseUrl.getD [], defaultModel.getD []⟩
            if c.failed then (providers, c) else (providers ++ [pc], c)
  | _ => (providers, c.invalid path "expected object")

def loadProviders (root : JVal) (old : List ProviderCfg) (c : Ctx) : List ProviderCfg × Ctx :=
  loadList "providers" loadProvider root old c

def loadAgent (i : Nat) (e : JVal) (s : List AgentCfg × Ctx) : List AgentCfg × Ctx :=
  let (agents, c) := s
  let path := elementPath "agents" i
  match e with
  | .object _ =>
      match getStr e "id" path true c with
      | (none, c) => (agents, c)
      | (some id, c) =>
          if hasAgentId agents id then (agents, c.invalid path "duplicate agent id")
          else
            match getStr e "model" path true c with
            | (none, c) => (agents, c)
            | (some model, c) =>
                let (maxTokens, c) := intField e "max_tokens" path 0 100000000 0 c
                if c.failed then (agents, c) else (agents ++ [⟨id, model, maxTokens⟩], c)
  | _ => (agents, c.invalid path "expected object")

def loadAgents (root : JVal) (old : List AgentCfg) (c : Ctx) : List AgentCfg × Ctx :=
  loadList "agents" loadAgent root old c

/-- A section that is an object. -/
def loadObject {α : Type} (key : String) (load : JVal → α → Ctx → α × Ctx) (root : JVal) (old : α)
    (c : Ctx) : α × Ctx :=
  match root.find (str key) with
  | none => (old, c)
  | some (.object members) => load (.object members) old c
  | some _ => (old, c.invalid (str key) "expected object")

/-- The greatest jitter, as a binary64. -/
def maxJitter : Rat := roundBinary64 99 100

def networkFields (n : JVal) (out : NetworkCfg) (c : Ctx) : NetworkCfg × Ctx :=
  let (timeoutMs, c) :=
    intField n "timeout_ms" (str "network.timeout_ms") 1 3600000 out.timeoutMs c
  let (maxRetries, c) :=
    intField n "max_retries" (str "network.max_retries") 0 20 out.maxRetries c
  let (backoffBaseMs, c) :=
    intField n "backoff_base_ms" (str "network.backoff_base_ms") 0 60000 out.backoffBaseMs c
  let (backoffMaxMs, c) :=
    intField n "backoff_max_ms" (str "network.backoff_max_ms") 0 600000 out.backoffMaxMs c
  let (jitter, c) := getDouble n "jitter" (str "network.jitter") 0 maxJitter c
  (⟨timeoutMs, maxRetries, backoffBaseMs, backoffMaxMs, jitter.getD out.jitter⟩,
    if backoffMaxMs < backoffBaseMs then
      c.invalid (str "network") "backoff_max_ms < backoff_base_ms"
    else c)

def loadNetwork (root : JVal) (old : NetworkCfg) (c : Ctx) : NetworkCfg × Ctx :=
  loadObject "network" networkFields root old c

def budgetFields (b : JVal) (out : BudgetCfg) (c : Ctx) : BudgetCfg × Ctx :=
  let (maxTokensPerTask, c) := intField b "max_tokens_per_task" (str "budget.max_tokens_per_task")
    1000 10000000 out.maxTokensPerTask c
  (⟨maxTokensPerTask⟩, c)

def loadBudget (root : JVal) (old : BudgetCfg) (c : Ctx) : BudgetCfg × Ctx :=
  loadObject "budget" budgetFields root old c

def memoryFields (m : JVal) (out : MemoryCfg) (c : Ctx) : MemoryCfg × Ctx :=
  let (maxValueChars, c) :=
    intField m "max_value_chars" (str "memory.max_value_chars") 1 100000 out.maxValueChars c
  let (maxKeyChars, c) :=
    intField m "max_key_chars" (str "memory.max_key_chars") 1 1000 out.maxKeyChars c
  let (maxEntries, c) :=
    intField m "max_entries" (str "memory.max_entries") 1 1000000 out.maxEntries c
  let (maxEntriesPerTask, c) := intField m "max_entries_per_task"
    (str "memory.max_entries_per_task") 1 1000 out.maxEntriesPerTask c
  let (maxEntryTokens, c) :=
    intField m "max_entry_tokens" (str "memory.max_entry_tokens") 1 100000 out.maxEntryTokens c
  (⟨maxValueChars, maxKeyChars, maxEntries, maxEntriesPerTask, maxEntryTokens⟩, c)

def loadMemory (root : JVal) (old : MemoryCfg) (c : Ctx) : MemoryCfg × Ctx :=
  loadObject "memory" memoryFields root old c

def loadDataDir (root : JVal) (old : Bytes) (c : Ctx) : Bytes × Ctx :=
  let (dir, c) := getStr root "data_dir" (str "data_dir") false c
  (dir.getD old, c)

def loadContextPath (_ : Nat) (e : JVal) (s : List Bytes × Ctx) : List Bytes × Ctx :=
  match e with
  | .string path => (s.1 ++ [path], s.2)
  | _ => (s.1, s.2.invalid (str "context_paths") "expected array of strings")

def loadContextPaths (root : JVal) (old : List Bytes) (c : Ctx) : List Bytes × Ctx :=
  loadList "context_paths" loadContextPath root old c

def loadEdgeMode (root : JVal) (old : Bool) (c : Ctx) : Bool × Ctx :=
  let (edge, c) := getBool root "edge_mode" (str "edge_mode") c
  (edge.getD old, c)

/-! ## The whole text -/

/-- The sections of a text. -/
inductive Section
  | schema
  | providers
  | agents
  | network
  | budget
  | memory
  | dataDir
  | contextPaths
  | edgeMode
  deriving Repr, DecidableEq

/-- The sections in the order in which they are read. -/
def sectionOrder : List Section :=
  [.schema, .providers, .agents, .network, .budget, .memory, .dataDir, .contextPaths, .edgeMode]

/-- Read one section into the configuration. -/
def loadSection (root : JVal) (out : Config) (c : Ctx) : Section → Config × Ctx
  | .schema => (out, loadSchema root c)
  | .providers =>
      let (providers, c) := loadProviders root out.providers c
      ({ out with providers := providers }, c)
  | .agents =>
      let (agents, c) := loadAgents root out.agents c
      ({ out with agents := agents }, c)
  | .network =>
      let (network, c) := loadNetwork root out.network c
      ({ out with network := network }, c)
  | .budget =>
      let (budget, c) := loadBudget root out.budget c
      ({ out with budget := budget }, c)
  | .memory =>
      let (memory, c) := loadMemory root out.memory c
      ({ out with memory := memory }, c)
  | .dataDir =>
      let (dataDir, c) := loadDataDir root out.dataDir c
      ({ out with dataDir := dataDir }, c)
  | .contextPaths =>
      let (contextPaths, c) := loadContextPaths root out.contextPaths c
      ({ out with contextPaths := contextPaths }, c)
  | .edgeMode =>
      let (edgeMode, c) := loadEdgeMode root out.edgeMode c
      ({ out with edgeMode := edgeMode }, c)

/-- Read sections up to the first bad one. -/
def loadSections (root : JVal) : List Section → Config × Ctx → Config × Ctx
  | [], s => s
  | name :: rest, s =>
      let next := loadSection root s.1 s.2 name
      if next.2.failed then next else loadSections root rest next

def kKnown : List Bytes :=
  [str "schema", str "providers", str "agents", str "network", str "budget", str "memory",
    str "data_dir", str "context_paths", str "edge_mode"]

/-- Log the keys that are not known. -/
def warnUnknown (obj : List (Bytes × JVal)) (c : Ctx) : Ctx :=
  { c with log := c.log ++ ((obj.map (·.1)).filter (· ∉ kKnown)).map .unknownKey }

/-- Load a text into a configuration: what becomes of the configuration, the lines that are logged
and the error. -/
def loadConfigJson (text : Bytes) (out : Config) : Config × Ctx :=
  match parseJson text with
  | .error _ => (out, ⟨[.parseFailed], some (.of .eInvalidCfg)⟩)
  | .ok (.object obj) =>
      let (out, c) := loadSections (.object obj) sectionOrder (out, ⟨[], none⟩)
      (out, if c.failed then c else warnUnknown obj c)
  | .ok _ => (out, ⟨[.rootNotObject], some (.of .eInvalidCfg)⟩)

end Opencodepp.Config
