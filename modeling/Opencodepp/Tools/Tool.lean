import Opencodepp.Core.Error
import Opencodepp.Library.FileSystem
import Opencodepp.Util.Json

/-!
# Tools, the registry and the permission gate

A tool is a declarative specification and a run over the file system.  The registry
holds tools under distinct wire names.  Every dispatch passes the permission gate,
which decides by the category of the tool and may ask the host.
-/

set_option autoImplicit false

namespace Opencodepp.Tools

open Opencodepp.Core
open Opencodepp.Library
open Opencodepp.Util

inductive ToolCategory
  | read
  | write
  | workspace
  | graph
  | shell
  deriving Repr, DecidableEq

inductive ParamType
  | string
  | integer
  | number
  | boolean
  | stringArray
  | object
  deriving Repr, DecidableEq

/-- A declared parameter. -/
structure ParamSpec where
  name : Bytes
  type : ParamType
  description : Bytes
  required : Bool
  defaultJson : Bytes
  enumValues : List Bytes
  deriving Repr, DecidableEq

structure ToolSpec where
  id : Bytes
  name : Bytes
  description : Bytes
  paramsSchema : Bytes
  isReadOnly : Bool
  category : ToolCategory
  params : List ParamSpec
  deriving Repr, DecidableEq

inductive ToolStatus
  | ok
  | error
  | canceled
  deriving Repr, DecidableEq

structure ToolResult where
  toolId : Bytes
  status : ToolStatus
  content : Bytes
  contentIsError : Bool
  usageEstimate : UInt32
  deriving Repr, DecidableEq

namespace ToolResult

/-- The default result: success with nothing to say. -/
def blank : ToolResult := ⟨[], .ok, [], false, 0⟩

/-- An error result with a message. -/
def failure (toolId content : Bytes) : ToolResult := ⟨toolId, .error, content, true, 0⟩

end ToolResult

/-- A call of a tool. -/
structure Invocation where
  toolName : Bytes
  argsJson : Bytes
  deriving Repr, DecidableEq

/-- A tool: its specification and its run.  The run sees the number of tool runs
before it, which stands for everything outside the file system it depends on, and
whether cancellation was requested. -/
structure Tool where
  spec : ToolSpec
  run : Nat → Invocation → Bool → Disk → ToolResult × Disk

/-! ## Schemas -/

def typeName : ParamType → String
  | .string => "string"
  | .integer => "integer"
  | .number => "number"
  | .boolean => "boolean"
  | .stringArray => "array"
  | .object => "object"

def typeSchema (t : ParamType) : List (Bytes × JVal) :=
  if t = .stringArray then
    [(str "type", .string (str "array")),
      (str "items", .object [(str "type", .string (str "string"))])]
  else [(str "type", .string (str (typeName t)))]

/-- The schema of one parameter; a default that does not parse is left out. -/
def paramSchema (p : ParamSpec) : JVal :=
  .object (typeSchema p.type ++
    (if p.description = [] then [] else [(str "description", .string p.description)]) ++
    (if p.defaultJson = [] then []
      else
        match parseJson p.defaultJson with
        | .ok v => [(str "default", v)]
        | .error _ => []) ++
    (if p.enumValues = [] then []
      else [(str "enum", .array (p.enumValues.map JVal.string))]))

/-- The JSON schema of the arguments.  The required list appears only beside an
optional parameter. -/
def paramsSchema (params : List ParamSpec) : Bytes :=
  let required := (params.filter (·.required)).map fun p => JVal.string p.name
  toJson (.object ([(str "type", .string (str "object"))] ++
    (if params = [] then []
      else [(str "properties", .object (params.map fun p => (p.name, paramSchema p)))]) ++
    (if params.any (fun p => !p.required) && !required.isEmpty then
        [(str "required", .array required)]
      else [])))

def makeSpec (id description : Bytes) (params : List ParamSpec) (isReadOnly : Bool)
    (category : ToolCategory) : ToolSpec :=
  ⟨id, id, description, paramsSchema params, isReadOnly, category, params⟩

/-! ## The registry -/

/-- The registered tools, in insertion order, under distinct names. -/
structure ToolRegistry where
  tools : List Tool
  distinct : (tools.map (·.spec.name)).Nodup

namespace ToolRegistry

def empty : ToolRegistry := ⟨[], List.nodup_nil⟩

/-- Add a tool; a name that is taken is refused. -/
def add (reg : ToolRegistry) (tool : Tool) : Except Failure ToolRegistry :=
  if fresh : tool.spec.name ∉ reg.tools.map (·.spec.name) then
    .ok ⟨reg.tools ++ [tool], by
      rw [List.map_append, List.nodup_append]
      refine ⟨reg.distinct, by simp, ?_⟩
      rintro a member b inSingleton rfl
      simp only [List.map_cons, List.map_nil, List.mem_singleton] at inSingleton
      exact fresh (inSingleton ▸ member)⟩
  else .error ⟨⟨.eInvalidCfg, UInt32.ofNat tool.spec.name.length⟩, rfl⟩

/-- The tool with a name. -/
def find (reg : ToolRegistry) (name : Bytes) : Option Tool :=
  reg.tools.find? (·.spec.name = name)

theorem mem_of_find {reg : ToolRegistry} {name : Bytes} {tool : Tool}
    (found : reg.find name = some tool) : tool ∈ reg.tools :=
  List.mem_of_find?_eq_some found

/-- Names are distinct, so a registered tool is the one found under its name. -/
theorem find_of_mem {reg : ToolRegistry} {tool : Tool} (member : tool ∈ reg.tools) :
    reg.find tool.spec.name = some tool := by
  obtain ⟨tools, distinct⟩ := reg
  simp only [find] at *
  induction tools with
  | nil => simp at member
  | cons first rest inductionHypothesis =>
      simp only [List.map_cons, List.nodup_cons] at distinct
      rcases List.mem_cons.mp member with same | later
      · simp [same]
      · have other : first.spec.name ≠ tool.spec.name := by
          intro clash
          exact distinct.1 (clash ▸ List.mem_map_of_mem later)
        simp only [List.find?_cons, other, decide_false]
        exact inductionHypothesis distinct.2 later

end ToolRegistry

/-! ## The permission gate -/

inductive Policy
  | deny
  | ask
  | allow
  | allowReadonly
  deriving Repr, DecidableEq

/-- The gate: a policy per category over a default, and the host's answer to a
question, which may differ from one question to the next. -/
structure Gate where
  defaultPolicy : Policy
  policies : List (ToolCategory × Policy)
  callback : Option (Nat → Bytes → Bytes → Bool)

namespace Gate

def policyFor (g : Gate) (category : ToolCategory) : Policy :=
  (g.policies.lookup category).getD g.defaultPolicy

def denied (toolName : Bytes) : ToolResult := .failure toolName (str "permission_denied")

/-- Whether an invocation is allowed: a blank result, or the denial. -/
def check (g : Gate) (asked : Nat) (inv : Invocation) (spec : ToolSpec) : ToolResult :=
  match g.policyFor spec.category with
  | .allow => .blank
  | .deny => denied spec.name
  | .allowReadonly => if spec.isReadOnly then .blank else denied spec.name
  | .ask =>
      match g.callback with
      | some callback =>
          if callback asked inv.toolName inv.argsJson then .blank else denied spec.name
      | none => denied spec.name

/-- The tool an invocation may run, or the result that stands in its place. -/
def permit (g : Gate) (reg : ToolRegistry) (asked : Nat) (name : Bytes) (inv : Invocation) :
    Except ToolResult Tool :=
  match reg.find name with
  | none => .error (.failure name (str "unknown tool: " ++ name))
  | some tool =>
      let verdict := g.check asked inv tool.spec
      if verdict.status = .ok then .ok tool else .error verdict

/-- The full dispatch: check, then run. -/
def run (g : Gate) (reg : ToolRegistry) (asked : Nat) (name : Bytes) (inv : Invocation)
    (canceled : Bool) (d : Disk) : ToolResult × Disk :=
  match g.permit reg asked name inv with
  | .error result => (result, d)
  | .ok tool => tool.run asked inv canceled d

theorem find_of_permit {g : Gate} {reg : ToolRegistry} {asked : Nat} {name : Bytes}
    {inv : Invocation} {tool : Tool} (permitted : g.permit reg asked name inv = .ok tool) :
    reg.find name = some tool := by
  unfold permit at permitted
  split at permitted
  · cases permitted
  · next found =>
      dsimp only at permitted
      split at permitted
      · cases permitted
        exact found
      · cases permitted

end Gate

end Opencodepp.Tools
