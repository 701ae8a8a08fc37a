import Opencodepp.Library.ByteString

/-!
# The agent's state machine

The main lane of a task and the orthogonal lanes beside it, with the table of legal
transitions.
-/

set_option autoImplicit false

namespace Opencodepp.Agent

open Opencodepp.Library

/-- The main lane. -/
inductive AgentState
  | idle
  | preparing
  | connecting
  | streaming
  | toolPhase
  | verifying
  | applying
  | done
  | error
  | cancelled
  deriving Repr, DecidableEq

/-- The lanes beside it. -/
inductive AgentLane
  | none
  | backoff
  | offline
  | paused
  deriving Repr, DecidableEq

/-- Whether a state ends a task. -/
def isTerminal : AgentState → Bool
  | .done | .error | .cancelled => true
  | _ => false

/-- The rows of the transition table between different, non-terminal states. -/
def pipelineStep : AgentState → AgentState → Bool
  | .idle, .preparing => true
  | .preparing, .connecting => true
  | .connecting, .streaming | .connecting, .toolPhase => true
  | .streaming, .toolPhase | .streaming, .verifying => true
  | .toolPhase, .verifying => true
  | .verifying, .applying | .verifying, .toolPhase => true
  | .applying, .verifying => true
  | _, _ => false

/-- Whether a transition of the main lane is legal. -/
def validTransition (source target : AgentState) : Bool :=
  if source = target then !isTerminal source
  else if target = .idle then source = .applying || source = .error || source = .cancelled
  else if isTerminal target then !isTerminal source && source ≠ .idle
  else pipelineStep source target

/-- Whether a lane may be held in a state. -/
def laneAllowed (s : AgentState) (l : AgentLane) : Bool :=
  match l with
  | .none => true
  | .paused => s = .connecting || s = .streaming || s = .toolPhase || s = .verifying
  | .backoff | .offline => s = .connecting || s = .streaming || s = .toolPhase

/-- The state after a transition is requested: an illegal request is dropped. -/
def nextState (source target : AgentState) : AgentState :=
  if validTransition source target then target else source

/-- What the host observes. -/
structure AgentEvent where
  state : AgentState
  lane : AgentLane
  phase : Bytes
  detail : Bytes
  tokensUsed : UInt64
  status : Nat
  deriving Repr, DecidableEq

theorem nextState_of_valid {source target : AgentState}
    (valid : validTransition source target = true) : nextState source target = target := by
  simp [nextState, valid]

end Opencodepp.Agent
