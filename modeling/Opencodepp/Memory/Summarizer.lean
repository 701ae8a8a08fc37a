import Opencodepp.Msg.Tokens

/-!
# Folding old turns

When a history does not fit the context window, its oldest messages are replaced by
one summary message in front of the newest ones.  The summary is made locally from
the first and last line of every folded turn unless a summary function supplies one.
-/

set_option autoImplicit false

namespace Opencodepp.Memory

open Opencodepp.Library
open Opencodepp.Msg

def isBlank (b : UInt8) : Bool := b = 0x0a || b = 0x0d || b = 0x20 || b = 0x09

/-- A text without blanks at its ends. -/
def trimBlank (text : Bytes) : Bytes :=
  ((text.dropWhile isBlank).reverse.dropWhile isBlank).reverse

/-- The first and the last line of a text; the last is empty when they agree. -/
def edgeLines (text : Bytes) : Bytes × Bytes :=
  let t := trimBlank text
  if t = [] then ([], [])
  else
    let first := t.takeWhile (· ≠ 0x0a)
    let last :=
      if t.contains 0x0a then
        ((t.reverse.takeWhile (· ≠ 0x0a)).reverse).dropWhile
          (fun b => b = 0x0d || b = 0x20 || b = 0x09)
      else t
    (first, if first = last then [] else last)

def lineFragment (text : Bytes) : Bytes :=
  let (first, last) := edgeLines text
  if last = [] then first else first ++ str " ... " ++ last

/-- The estimated tokens of a history, saturated at 32 bits. -/
def estimateHistoryTokens (msgs : List Message) : Nat :=
  let total := (msgs.map fun m =>
    estimateTokens m.contentText + m.toolCalls.length * 12 + m.toolResults.length * 8).sum
  min total 0xFFFFFFFF

/-- Whether a history should be folded. -/
def needsFold (msgs : List Message) (contextWindow maxOutputTokens : UInt32)
    (keepRecent : Nat) : Bool :=
  if contextWindow = 0 then false
  else if msgs.length ≤ keepRecent then false
  else contextWindow.toNat - maxOutputTokens.toNat < estimateHistoryTokens msgs

/-- One folded turn. -/
def foldLine (m : Message) : Bytes :=
  str "[" ++ m.role.toBytes ++ str "] " ++
    (if m.contentText = [] then [] else lineFragment m.contentText) ++
    (if m.toolCalls = [] then [] else str " tool_calls=" ++ decimal m.toolCalls.length) ++
    (if m.toolResults = [] then [] else str " tool_results=" ++ decimal m.toolResults.length)

/-- The outcome of the newest folded turn. -/
def foldOutcome (newest : Message) : Bytes :=
  str "\noutcome: " ++
    (if newest.contentText ≠ [] then lineFragment newest.contentText
      else
        match newest.finishReason? with
        | some reason => reason.toBytes
        | none => str "turn complete")

def localFoldText (msgs : List Message) : Bytes :=
  [0x0a].intercalate (msgs.map foldLine) ++
    match msgs.getLast? with
    | some newest => foldOutcome newest
    | none => []

/-- The result of a fold: the projected history and how the loss is announced. -/
structure FoldResult where
  messages : List Message
  foldedCount : Nat
  foldedTokens : Nat
  eventWhat : Bytes
  eventReason : Bytes
  folded : Bool
  deriving Repr, DecidableEq

def FoldResult.none : FoldResult := ⟨[], 0, 0, [], [], false⟩

/-- The message that stands for the folded turns. -/
def summaryMessage (text : Bytes) : Message :=
  ⟨[], [], .user, [], [.text (str "[summary of earlier turns]\n" ++ text)], 0⟩

/-- Replace everything before the newest messages by one summary. -/
def foldOldest (msgs : List Message) (contextWindow maxOutputTokens : UInt32) (keepRecent : Nat)
    (fn : Option (List Message → Bytes → Bytes)) : FoldResult :=
  if msgs.length ≤ keepRecent then .none
  else
    let folded := msgs.take (msgs.length - keepRecent)
    let tail := msgs.drop (msgs.length - keepRecent)
    let localText := localFoldText folded
    let supplied := (fn.map fun f => f folded localText).getD []
    let text := if supplied = [] then localText else supplied
    let reason := if supplied = [] then str "budget forbids an extra LLM call" else str "LLM fold"
    let messages := summaryMessage text :: tail
    { messages
      foldedCount := folded.length
      foldedTokens := estimateHistoryTokens folded
      eventWhat := str "history fold: " ++ decimal folded.length ++ str " messages"
      eventReason :=
        if needsFold messages contextWindow maxOutputTokens keepRecent then
          reason ++ str "; still over the context cap after fold"
        else reason
      folded := true }

end Opencodepp.Memory
