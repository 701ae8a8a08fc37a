import Opencodepp.Library.Keyed
import Opencodepp.Prompt.Context

/-!
# The prompt registry

Templates are compiled from the files of a directory into a registry, file by file.  A file that
cannot be opened ends the load with an error, and what was read before it stays in the registry:
a load puts the same templates into the registry whether it succeeds or fails
(`loadTemplates_registry`).
-/

set_option autoImplicit false

namespace Opencodepp.Prompt

open Opencodepp.Core
open Opencodepp.Library

/-! ## Compilation -/

/-- The names of the slots of a text, in order and without repetition: `found` are those before
the text, and the fuel bounds the number of slots. -/
def findPlaceholders : Nat → Bytes → List Bytes → List Bytes
  | 0, _, found => found
  | fuel + 1, text, found =>
      match indexOf (str "\x7b\x7b") text with
      | none => found
      | some opening =>
          let inside := text.drop (opening + 2)
          match indexOf (str "\x7d\x7d") inside with
          | none => found
          | some closing =>
              let name := inside.take closing
              let rest := inside.drop (closing + 2)
              if found.contains name || name.isEmpty then findPlaceholders fuel rest found
              else findPlaceholders fuel rest (found ++ [name])

def compilePrompt (id source : Bytes) : PromptRef :=
  ⟨id, [⟨if findPlaceholders source.length source [] = [] then .system else .template, source⟩]⟩

/-! ## Loading -/

/-- A template has the place of the one with its id, if there is one. -/
def PromptRegistry.add (reg : PromptRegistry) (p : PromptRef) : PromptRegistry :=
  Keyed.put (·.id) p reg

/-- A template file: the stem of its name, and its text if it can be opened. -/
structure TemplateFile where
  id : Bytes
  text : Option Bytes
  deriving Repr, DecidableEq

/-- The directories of the file system, with their template files in the order of iteration. -/
abbrev TemplateDirs := Bytes → Option (List TemplateFile)

def compilePromptFile (file : TemplateFile) : Except Failure PromptRef :=
  match file.text with
  | none => .error (.of .eMissingCfg)
  | some text => .ok (compilePrompt file.id text)

def loadFiles : List TemplateFile → PromptRegistry → Except Failure Unit × PromptRegistry
  | [], reg => (.ok (), reg)
  | file :: rest, reg =>
      match compilePromptFile file with
      | .error e => (.error e, reg)
      | .ok ref => loadFiles rest (reg.add ref)

/-- Load the templates of a directory into a registry; the registry is changed also by a load
that fails. -/
def loadTemplates (dirs : TemplateDirs) (dir : Bytes) (reg : PromptRegistry) :
    Except Failure Unit × PromptRegistry :=
  match dirs dir with
  | none => (.error (.of .eMissingCfg), reg)
  | some files => loadFiles files reg

/-- The templates of the files up to the first that cannot be opened. -/
def compiled : List TemplateFile → List PromptRef
  | [] => []
  | file :: rest =>
      match file.text with
      | none => []
      | some text => compilePrompt file.id text :: compiled rest

/-- The templates a load takes from a directory. -/
def compiledFrom (dirs : TemplateDirs) (dir : Bytes) : List PromptRef :=
  ((dirs dir).map compiled).getD []

theorem loadFiles_registry (files : List TemplateFile) (reg : PromptRegistry) :
    (loadFiles files reg).2 = Keyed.putAll (·.id) (compiled files) reg := by
  induction files generalizing reg with
  | nil => rfl
  | cons file rest inductionHypothesis =>
      obtain ⟨id, text⟩ := file
      cases text with
      | none => rfl
      | some text => exact inductionHypothesis _

/-- A load puts the templates it could read into the registry, and fails or not. -/
theorem loadTemplates_registry (dirs : TemplateDirs) (dir : Bytes) (reg : PromptRegistry) :
    (loadTemplates dirs dir reg).2 = Keyed.putAll (·.id) (compiledFrom dirs dir) reg := by
  unfold loadTemplates compiledFrom
  cases dirs dir with
  | none => rfl
  | some files => exact loadFiles_registry files reg

end Opencodepp.Prompt
