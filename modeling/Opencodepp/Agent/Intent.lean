import Opencodepp.Library.ByteString

/-!
# The intent of a user turn

A deterministic classifier: keyword lists in a fixed priority over the lower-cased
turn, matched at word boundaries, and file paths as the last resort.  The plan it
returns selects the prompt tier and the tools that are offered.
-/

set_option autoImplicit false

namespace Opencodepp.Agent

open Opencodepp.Library

inductive Intent
  | unknown
  | ask
  | explain
  | edit
  | refactor
  | bugfix
  | test
  | shell
  | explore
  | meta_
  deriving Repr, DecidableEq

def Intent.toBytes : Intent → Bytes
  | .unknown => str "unknown"
  | .ask => str "ask"
  | .explain => str "explain"
  | .edit => str "edit"
  | .refactor => str "refactor"
  | .bugfix => str "bugfix"
  | .test => str "test"
  | .shell => str "shell"
  | .explore => str "explore"
  | .meta_ => str "meta"

/-- The context tiers. -/
inductive BudgetProfile
  | minimal
  | read
  | edit
  deriving Repr, DecidableEq

def BudgetProfile.toBytes : BudgetProfile → Bytes
  | .minimal => str "minimal"
  | .read => str "read"
  | .edit => str "edit"

structure IntentPlan where
  intent : Intent
  affectedPaths : List Bytes
  budgetProfile : BudgetProfile
  wantsTools : Bool
  writeAllowed : Bool
  deriving Repr, DecidableEq

/-! ## Matching -/

/-- What may follow a matched word: the end, white space or sentence punctuation. -/
def endsWord : Option UInt8 → Bool
  | none => true
  | some b => isSpace b || b = ch ',' || b = ch '.' || b = ch '?' || b = ch '!'

/-- What may precede a matched word: the start or white space. -/
def startsWord : Option UInt8 → Bool
  | none => true
  | some b => isSpace b

/-- Search for a word from a position on. -/
def hasWordFrom (hay word : Bytes) : Nat → Nat → Bool
  | 0, _ => false
  | fuel + 1, pos =>
      match indexOf word (hay.drop pos) with
      | none => false
      | some offset =>
          let start := pos + offset
          let before := if start = 0 then none else hay[start - 1]?
          (startsWord before && endsWord (hay[start + word.length]?)) ||
            hasWordFrom hay word fuel (start + word.length)

def hasWord (hay word : Bytes) : Bool := hasWordFrom hay word (hay.length + 1) 0

def hasAny (hay : Bytes) (words : List String) : Bool := words.any fun w => hasWord hay (str w)

def lowerAscii (s : Bytes) : Bytes := s.map lowerByte

/-! ## Paths -/

def pathExtensions : List String :=
  ["c", "cc", "cpp", "cxx", "h", "hh", "hpp", "hxx", "py", "rs", "go", "js", "ts", "json", "toml",
    "yaml", "yml", "md", "txt", "sh", "cmake"]

/-- Whether a token ends in a known extension behind a dot that is not its first byte. -/
def isPathExt (token : Bytes) : Bool :=
  let ext := (token.reverse.takeWhile (· ≠ ch '.')).reverse
  if ext.length + 1 < token.length then pathExtensions.any fun e => ext = str e else false

def looksPathy (token : Bytes) : Bool :=
  token.contains slash || token.contains 0x5c || isPathExt token

def isTokenBreak (b : UInt8) : Bool := isSpace b || b = ch ',' || b = ch ';'

/-- A token without trailing punctuation and surrounding quotes. -/
def trimToken (token : Bytes) : Bytes :=
  let bare := (token.reverse.dropWhile
    (fun b => b = ch '.' || b = ch '?' || b = ch '!' || b = ch ')')).reverse
  if 2 ≤ bare.length && bare.head? = some 0x22 && bare.getLast? = some 0x22 then
    (bare.drop 1).dropLast
  else bare

/-- The file-like tokens of a turn, each once, in order. -/
def extractPathHints (message : Bytes) : List Bytes :=
  ((message.splitOnP isTokenBreak).filter (· ≠ [])).foldl
    (fun found token =>
      let hint := trimToken token
      if looksPathy hint && !found.contains hint then found ++ [hint] else found) []

/-! ## Classification -/

def kMeta : List String := ["remember", "note that", "add a rule", "remember this rule"]

def kShell : List String :=
  ["run", "execute", "shell", "command", "compile", "build it", "run the tests", "make it run"]

def kTest : List String :=
  ["add tests", "write a test", "write tests", "unit test", "fix the test", "add a test",
    "test suite", "test it"]

def kBugfix : List String :=
  ["bug", "crash", "segfault", "broken", "fails", "failing", "doesn't work", "does not work",
    "wrong output", "fix"]

def kRefactor : List String :=
  ["refactor", "restructure", "rename", "clean up", "cleanup", "simplify", "extract",
    "reorganize", "tidy"]

def kExplore : List String :=
  ["explore", "find", "search", "where is", "show me", "list", "discover", "inspect", "look at",
    "show"]

def kExplain : List String :=
  ["explain", "describe", "walk me through", "clarify", "what does this", "what does the",
    "why does", "how does"]

def kAsk : List String :=
  ["what is", "what's", "how do i", "how do you", "can you tell me", "question", "why is"]

def kEdit : List String :=
  ["edit", "change", "modify", "update", "rewrite", "write", "add", "remove", "delete",
    "implement", "create"]

/-- A plan that offers every tool and may write. -/
def editPlan (intent : Intent) (paths : List Bytes) : IntentPlan :=
  ⟨intent, paths, .edit, true, true⟩

/-- A plan that offers no tools. -/
def minimalPlan (intent : Intent) (paths : List Bytes) : IntentPlan :=
  ⟨intent, paths, .minimal, false, false⟩

/-- Classify a user turn. -/
def classifyIntent (message : Bytes) : IntentPlan :=
  let msg := lowerAscii message
  let paths := extractPathHints message
  if hasAny msg kMeta then minimalPlan .meta_ paths
  else if hasAny msg kShell then editPlan .shell paths
  else if hasAny msg kTest then editPlan .test paths
  else if hasAny msg kBugfix then editPlan .bugfix paths
  else if hasAny msg kRefactor then editPlan .refactor paths
  else if hasAny msg kExplore then ⟨.explore, paths, .read, true, false⟩
  else if hasAny msg kExplain then minimalPlan .explain paths
  else if hasAny msg kAsk || msg.contains (ch '?') then minimalPlan .ask paths
  else if hasAny msg kEdit then editPlan .edit paths
  else if !paths.isEmpty then editPlan .edit paths
  else minimalPlan .unknown paths

/-- What a plan may look like: edit plans offer everything and may write, the others
may not write and offer at most read-only tools. -/
def IntentPlan.Coherent (plan : IntentPlan) : Prop :=
  plan.writeAllowed = true ↔ plan.budgetProfile = .edit

theorem editPlan_coherent (intent : Intent) (paths : List Bytes) :
    (editPlan intent paths).Coherent := by simp [IntentPlan.Coherent, editPlan]

theorem minimalPlan_coherent (intent : Intent) (paths : List Bytes) :
    (minimalPlan intent paths).Coherent := by simp [IntentPlan.Coherent, minimalPlan]

/-- A plan may write exactly when it has the edit profile. -/
theorem classifyIntent_coherent (message : Bytes) : (classifyIntent message).Coherent := by
  unfold classifyIntent
  refine iteInduction (fun _ => minimalPlan_coherent _ _) fun _ => ?_
  refine iteInduction (fun _ => editPlan_coherent _ _) fun _ => ?_
  refine iteInduction (fun _ => editPlan_coherent _ _) fun _ => ?_
  refine iteInduction (fun _ => editPlan_coherent _ _) fun _ => ?_
  refine iteInduction (fun _ => editPlan_coherent _ _) fun _ => ?_
  refine iteInduction (fun _ => by simp [IntentPlan.Coherent]) fun _ => ?_
  refine iteInduction (fun _ => minimalPlan_coherent _ _) fun _ => ?_
  refine iteInduction (fun _ => minimalPlan_coherent _ _) fun _ => ?_
  refine iteInduction (fun _ => editPlan_coherent _ _) fun _ => ?_
  exact iteInduction (fun _ => editPlan_coherent _ _) fun _ => minimalPlan_coherent _ _

end Opencodepp.Agent
