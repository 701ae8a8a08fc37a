import Opencodepp.Agent.Loop
import Opencodepp.Provider.Factory

/-!
# Scripted runs

A setting in which everything outside the agent is written down in advance: the frames
every connection delivers and how it ends, when the host cancels, the registered tools and
the files.  The agent talks to an adapter of the compatible wire family.  Runs in this
setting can be evaluated.
-/

set_option autoImplicit false

namespace Opencodepp.Agent

open Opencodepp.Core
open Opencodepp.Library
open Opencodepp.Msg
open Opencodepp.Provider
open Opencodepp.Util

/-! ## Frames -/

/-- A chunk of the compatible wire family. -/
def chunkFrame (choice : List (Bytes × JVal)) (rest : List (Bytes × JVal)) : StreamFrame :=
  ⟨[], toJson (.object ([(str "choices", .array [.object choice])] ++ rest))⟩

/-- A piece of text. -/
def textFrame (text : String) : StreamFrame :=
  chunkFrame [(str "delta", .object [(str "content", .string (str text))])] []

/-- A whole tool call. -/
def callFrame (index : Nat) (id name : String) (args : JVal) : StreamFrame :=
  chunkFrame [(str "delta", .object [(str "tool_calls", .array [.object [
    (str "index", .number index),
    (str "id", .string (str id)),
    (str "function", .object [
      (str "name", .string (str name)),
      (str "arguments", .string (toJson args))])]])])] []

/-- The end of a message, with the tokens it cost. -/
def endFrame (reason : String) (promptTokens completionTokens : Nat) : StreamFrame :=
  chunkFrame [(str "delta", .object []), (str "finish_reason", .string (str reason))]
    [(str "usage", .object [
      (str "prompt_tokens", .number promptTokens),
      (str "completion_tokens", .number completionTokens)])]

/-- The arguments of a write. -/
def writeArgs (path content : String) : JVal :=
  .object [(str "path", .string (str path)), (str "content", .string (str content))]

/-! ## Connections -/

/-- A connection that is accepted, delivers these frames in one chunk, and ends so. -/
def connection (frames : List StreamFrame) (bodyEnd : Except Failure Unit) : Attempt :=
  ⟨.ok (), .ok (), [.ok (2 ^ 20)], [.head 200], [⟨frames, .ok ()⟩], bodyEnd⟩

/-- A reply without calls. -/
def textReply (text : String) : Attempt :=
  connection [textFrame text, endFrame "stop" 3 4] (.ok ())

/-- A reply with one call. -/
def callReply (id name : String) (args : JVal) : Attempt :=
  connection [callFrame 0 id name args, endFrame "tool_calls" 3 4] (.ok ())

/-- A connection that is lost while it streams. -/
def lostStream : Attempt := connection [textFrame "half"] (.error (.of .eNetTimeout))

/-! ## Worlds and environments -/

/-- Connections in order, the last text over and over after them; the host cancels right
after the given polls. -/
def scriptedWorld (connections : List Attempt) (cancelsAfter : List Nat) : World where
  hostCancels n := cancelsAfter.contains n
  sinkStops _ := false
  attempts n := connections.getD n (textReply "bye")
  wallClock _ := 0
  memoryContext _ := []

/-- The tools of a workspace: only file.write. -/
def writeTools : Tools.ToolRegistry := ⟨[Tools.fileWriteTool (str "/w")], by simp⟩

theorem writeTools_find :
    writeTools.find Tools.fileWriteId = some (Tools.fileWriteTool (str "/w")) := by
  have member : Tools.fileWriteTool (str "/w") ∈ writeTools.tools := List.mem_singleton.mpr rfl
  exact Tools.ToolRegistry.find_of_mem member

def scriptedSession : SessionOptions where
  id := str "s"
  maxTokensPerTask := 12000
  agentMaxTokens := []
  model := ⟨str "openai_compat", str "openai", str "m", str "http://h:1", 0, 0⟩
  providerId := str "openai_compat"
  apiKey := str "k"
  hasStore := true
  hasSink := true

/-- A gate none of whose stages objects. -/
def lenientCheckers : Verify.Checkers :=
  ⟨fun _ _ => [], fun _ _ => [], fun _ _ => [], fun _ => []⟩

/-- An environment over a workspace with these tools, everything being allowed. -/
def scriptedEnv (tools : Tools.ToolRegistry) (connections : List Attempt)
    (cancelsAfter : List Nat) : Env where
  session := scriptedSession
  opts :=
    { hasLoop := true
      prompt := some [⟨str "SYSTEM_BASE", [⟨.system, str "be brief"⟩]⟩]
      tools := some tools
      permission := some ⟨.allow, [], none⟩
      verify := some lenientCheckers
      verifyCtx := ⟨str "/w", true, true, true, true⟩
      retry := ⟨8, 300, 3 / 10, 30000⟩ }
  world := scriptedWorld connections cancelsAfter

/-- A disk with an empty workspace. -/
def scriptedDisk : Disk := ⟨[(⟨true, [str "w"]⟩, .dir)], fun _ => .none, 0⟩

/-- An agent before its first task in that workspace. -/
def scriptedStart : Sys factory := .fresh factory scriptedDisk

end Opencodepp.Agent
