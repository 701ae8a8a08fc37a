import Opencodepp.Library.OrderedMap
import Opencodepp.Provider.Interface
import Opencodepp.Util.Base64
import Opencodepp.Util.Json

/-!
# What the wire formats share

Tolerant readers of JSON members, the JSON constructors the request builders use,
and the table of tool calls whose arguments are still arriving in fragments.
-/

set_option autoImplicit false

namespace Opencodepp.Provider

open Opencodepp.Library
open Opencodepp.Msg
open Opencodepp.Util

/-! ## Readers -/

/-- A number member; a missing one or one of another kind counts as zero. -/
def getNum (v : JVal) (key : String) : UInt64 := toUInt64 ((v.findNumber (str key)).getD 0)

/-- A string member; empty when missing or of another kind. -/
def getStr (v : JVal) (key : String) : Bytes := (v.findString (str key)).getD []

def getObj (v : JVal) (key : String) : Option JVal := v.findObject (str key)

def getArr (v : JVal) (key : String) : Option (List JVal) := v.findArray (str key)

/-- A Boolean member; false when missing or of another kind. -/
def getBool (v : JVal) (key : String) : Bool := (v.findBool (str key)).getD false

/-! ## Constructors -/

def jsonObject (members : List (String × JVal)) : JVal :=
  .object (members.map fun (key, v) => (str key, v))

def jsonStr (s : String) : JVal := .string (str s)

def jsonNat (n : Nat) : JVal := .number n

/-- The schema of a tool's arguments; an empty object when it does not parse to one. -/
def schemaObject (schemaJson : Bytes) : JVal :=
  if schemaJson = [] then .object []
  else
    match parseJson schemaJson with
    | .ok (.object obj) => .object obj
    | _ => .object []

/-- The arguments of a call as a value; an empty text stands for no arguments. -/
def toolInput (inputJson : Bytes) : Option JVal :=
  if inputJson = [] then some (.object [])
  else (parseJson inputJson).toOption

/-- The host header: the port only when it is not the scheme's own. -/
def hostHeader (u : UrlParts) : Bytes :=
  if u.port ≠ 0 && !((u.scheme = str "http" && u.port = 80) ||
      (u.scheme = str "https" && u.port = 443)) then
    u.host ++ str ":" ++ decimal u.port
  else u.host

/-- The output limit put on the wire. -/
def wireMaxTokens (budget : Budget) (model : ModelSpec) (default : UInt32) : UInt32 :=
  if budget.maxOutputTokens ≠ 0 then budget.maxOutputTokens
  else if model.defaultMaxTokens ≠ 0 then model.defaultMaxTokens
  else default

/-- The text of every system message, in order. -/
def systemText (msgs : List Message) : Bytes :=
  msgs.flatMap fun m => if m.role = .system then m.contentText else []

/-! ## Calls in progress -/

/-- A tool call whose arguments are still arriving. -/
structure PendingTool where
  id : Bytes
  name : Bytes
  args : Bytes
  deriving Repr, DecidableEq

def PendingTool.empty : PendingTool := ⟨[], [], []⟩

/-- The finished call of an entry. -/
def PendingTool.done (pt : PendingTool) : ToolCallDone := ⟨pt.id, pt.name, pt.args⟩

/-- The calls in progress, by stream index. -/
abbrev Pending := List (UInt64 × PendingTool)

end Opencodepp.Provider
