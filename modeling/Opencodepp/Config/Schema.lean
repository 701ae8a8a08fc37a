import Mathlib.Data.Rat.Defs
import Opencodepp.Library.ByteString

/-!
# The configuration

The validated configuration of the engine, with the defaults of its fields.
-/

set_option autoImplicit false

namespace Opencodepp

open Opencodepp.Library

structure ProviderCfg where
  id : Bytes
  apiKey : Bytes
  baseUrl : Bytes
  defaultModel : Bytes
  deriving Repr, DecidableEq

/-- An agent; a cap of zero stands for the budget's. -/
structure AgentCfg where
  id : Bytes
  model : Bytes
  maxTokens : UInt32
  deriving Repr, DecidableEq

structure NetworkCfg where
  timeoutMs : UInt32 := 30000
  maxRetries : UInt32 := 3
  backoffBaseMs : UInt32 := 250
  backoffMaxMs : UInt32 := 8000
  jitter : Rat := 1 / 5
  deriving Repr, DecidableEq

structure BudgetCfg where
  maxTokensPerTask : UInt32 := 12000
  deriving Repr, DecidableEq

structure MemoryCfg where
  maxValueChars : UInt32 := 512
  maxKeyChars : UInt32 := 64
  maxEntries : UInt32 := 64
  maxEntriesPerTask : UInt32 := 6
  maxEntryTokens : UInt32 := 400
  deriving Repr, DecidableEq

structure Config where
  providers : List ProviderCfg := []
  agents : List AgentCfg := []
  network : NetworkCfg := {}
  budget : BudgetCfg := {}
  memory : MemoryCfg := {}
  dataDir : Bytes := []
  contextPaths : List Bytes := []
  edgeMode : Bool := false
  deriving Repr, DecidableEq

end Opencodepp
