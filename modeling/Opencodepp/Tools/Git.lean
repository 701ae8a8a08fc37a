import Mathlib.Data.List.TakeWhile
import Opencodepp.Library.Shell
import Opencodepp.Tools.Defaults

/-!
# The git probes

`git.diff` and `git.show` put their arguments into a command line for the shell.  Both are marked
read-only, so under `allow_readonly` the gate lets every call through, and what runs is what the
shell makes of the line.  It is the git command that the tool means exactly when the argument is
a literal word without zero bytes that git does not take for an option
(`readonly_git_iff`).
-/

set_option autoImplicit false

namespace Opencodepp.Tools

open Opencodepp.Core
open Opencodepp.Library
open Opencodepp.Library.Shell (Reading Literal scan)
open Opencodepp.Util

/-- The value that arguments are looked up in when nobody asks whether the text was accepted: a
value before other bytes counts, and where there is none, nothing is found. -/
def argRoot (argsJson : Bytes) : JVal :=
  if argsJson = [] then .object []
  else
    match parseValue (2 * argsJson.length + 2) argsJson with
    | .ok (v, _) => v
    | .error _ => .null

/-! ## Processes -/

structure ProcOpts where
  cmd : Bytes
  workingDir : Bytes
  timeoutMs : Nat
  deriving Repr, DecidableEq

structure ProcResult where
  exitCode : Int
  stdout : Bytes
  deriving Repr, DecidableEq

/-- What a process comes to, by the number of processes before it in the same call; nothing when
it cannot be started. -/
abbrev ProcessRuns := Nat → ProcOpts → Option ProcResult

/-- The line that the shell is given: the command as a C string. -/
def ProcOpts.line (opts : ProcOpts) : Bytes := cString opts.cmd

/-- Try a process until it succeeds; together with the output there are the attempts. -/
def attempt (runProcess : ProcessRuns) (opts : ProcOpts) :
    Nat → Nat → Option Bytes × List ProcOpts
  | 0, _ => (none, [])
  | left + 1, before =>
      match runProcess before opts with
      | some ⟨0, stdout⟩ => (some stdout, [opts])
      | _ =>
          let (output, attempts) := attempt runProcess opts left (before + 1)
          (output, opts :: attempts)

def gitOpts (base args : Bytes) : ProcOpts := ⟨str "git " ++ args, base, 10000⟩

/-- Run git, with one retry. -/
def gitRun (runProcess : ProcessRuns) (base args : Bytes) : Option Bytes × List ProcOpts :=
  attempt runProcess (gitOpts base args) 2 0

/-- The result of a probe, with the processes it ran. -/
def probeResult (id : Bytes) : Option Bytes × List ProcOpts → ToolResult × List ProcOpts
  | (some output, attempts) => (textResult id .ok output, attempts)
  | (none, attempts) => (textResult id .error (str "git failed"), attempts)

/-! ## The tools -/

/-- The arguments of `git.diff`. -/
structure DiffArgs where
  file : Bytes
  staged : Bool
  deriving Repr, DecidableEq

def DiffArgs.read (argsJson : Bytes) : DiffArgs where
  file := ((argRoot argsJson).findString (str "file")).getD []
  staged := ((argRoot argsJson).findBool (str "staged")).getD false

def DiffArgs.cmd (args : DiffArgs) : Bytes :=
  (if args.staged then str "diff --cached" else str "diff") ++
    (if args.file = [] then [] else str " -- " ++ args.file)

def gitDiffRun (runProcess : ProcessRuns) (base : Bytes) (inv : Invocation) :
    ToolResult × List ProcOpts :=
  probeResult gitDiffSpec.id (gitRun runProcess base (DiffArgs.read inv.argsJson).cmd)

/-- The arguments of `git.show`. -/
structure ShowArgs where
  commit : Bytes
  file : Bytes
  deriving Repr, DecidableEq

def ShowArgs.read (argsJson : Bytes) : ShowArgs where
  commit := ((argRoot argsJson).findString (str "commit")).getD (str "HEAD")
  file := ((argRoot argsJson).findString (str "file")).getD []

def ShowArgs.cmd (args : ShowArgs) : Bytes :=
  if args.file = [] then str "show --no-color --stat " ++ args.commit
  else str "show " ++ args.commit ++ str ":" ++ args.file

def gitShowRun (runProcess : ProcessRuns) (base : Bytes) (inv : Invocation) :
    ToolResult × List ProcOpts :=
  probeResult gitShowSpec.id (gitRun runProcess base (ShowArgs.read inv.argsJson).cmd)

/-- A probe behind the gate. -/
def Gate.probe (g : Gate) (asked : Nat) (spec : ToolSpec) (inv : Invocation)
    (run : ToolResult × List ProcOpts) : ToolResult × List ProcOpts :=
  let verdict := g.check asked inv spec
  if verdict.status = .ok then run else (verdict, [])

/-! ## What is meant -/

/-- Whether git takes a word for an option. -/
def isOption (word : Bytes) : Bool := word.head? = some (ch '-') && 2 ≤ word.length

/-- The words after the subcommand that are not options. -/
def operands : List Bytes → List Bytes
  | [] => []
  | word :: rest =>
      if word = str "--" then rest
      else if isOption word then operands rest
      else word :: operands rest

/-- A git command: the words a tool puts there itself, and those its arguments stand for. -/
structure GitWords where
  subcommand : Bytes
  own : List Bytes
  args : List Bytes
  deriving Repr, DecidableEq

def DiffArgs.words (args : DiffArgs) : GitWords where
  subcommand := str "diff"
  own := (if args.staged then [str "--cached"] else []) ++ (if args.file = [] then [] else [str "--"])
  args := if args.file = [] then [] else [args.file]

/-- The object that `git.show` is asked for. -/
def ShowArgs.object (args : ShowArgs) : Bytes :=
  if args.file = [] then args.commit else args.commit ++ str ":" ++ args.file

def ShowArgs.words (args : ShowArgs) : GitWords where
  subcommand := str "show"
  own := if args.file = [] then [str "--no-color", str "--stat"] else []
  args := [args.object]

/-- The shell runs git once, with every argument as one word, and git takes none of them for
anything but an operand. -/
structure Runs (words : GitWords) (opts : ProcOpts) : Prop where
  read : Shell.read opts.line = .command ([str "git", words.subcommand] ++ words.own ++ words.args)
  operands : operands (words.own ++ words.args) = words.args

/-- The words before the argument, each with a blank behind it. -/
def spaced (words : List Bytes) : Bytes := words.flatMap (· ++ [ch ' '])

/-- Whatever is at the end of a line of literal words is read as one word exactly when it is
literal and not cut. -/
theorem read_spaced_iff {own : List Bytes} (literal : ∀ word ∈ own, Literal word)
    (clean : (0 : UInt8) ∉ spaced own) {arg : Bytes} :
    Shell.read (cString (spaced own ++ arg)) = .command (own ++ [arg]) ↔
      (0 : UInt8) ∉ arg ∧ Literal arg := by
  rw [cString_append_of_notMem clean, Shell.read, spaced, Shell.scan_words literal, List.nil_append]
  by_cases cut : (0 : UInt8) ∈ arg
  · refine iff_of_false (Shell.scan_ne_of_shorter ?_) fun both => both.1 cut
    refine Nat.lt_of_le_of_ne (List.takeWhile_sublist _).length_le fun same => ?_
    have whole : cString arg = arg := (List.takeWhile_sublist _).eq_of_length same
    rw [← whole] at cut
    simpa using List.mem_takeWhile_imp cut
  · rw [cString_of_notMem cut, Shell.scan_eq_iff_literal]
    exact (and_iff_right cut).symm

/-! ## What runs -/

/-- All attempts are the same process, and there is one. -/
theorem mem_attempt {runProcess : ProcessRuns} {opts other : ProcOpts} :
    ∀ {left before : Nat}, 0 < left →
      (other ∈ (attempt runProcess opts left before).2 ↔ other = opts) := by
  intro left
  induction left with
  | zero => exact fun positive => absurd positive (Nat.lt_irrefl 0)
  | succ left ih =>
      intro before _
      unfold attempt
      split
      · simp
      · cases left with
        | zero => simp [attempt]
        | succ left =>
            have later : other ∈ (attempt runProcess opts (left + 1) (before + 1)).2 ↔ _ :=
              ih (Nat.succ_pos left)
            simp [later]

theorem attempts_probeResult (id : Bytes) (run : Option Bytes × List ProcOpts) :
    (probeResult id run).2 = run.2 := by
  obtain ⟨_ | output, attempts⟩ := run <;> rfl

theorem forall_gitRun {runProcess : ProcessRuns} {base cmd id : Bytes} {condition : ProcOpts → Prop} :
    (∀ opts ∈ (probeResult id (gitRun runProcess base cmd)).2, condition opts) ↔
      condition (gitOpts base cmd) := by
  rw [attempts_probeResult, gitRun]
  constructor
  · exact fun all => all _ ((mem_attempt (by decide)).mpr rfl)
  · intro met opts member
    rw [(mem_attempt (by decide)).mp member]
    exact met

/-- What `git.diff` may be given. -/
def DiffArgs.Harmless (args : DiffArgs) : Prop :=
  args.file = [] ∨ ((0 : UInt8) ∉ args.file ∧ Literal args.file)

instance (args : DiffArgs) : Decidable args.Harmless := inferInstanceAs (Decidable (_ ∨ _))

/-- What `git.show` may be given. -/
def ShowArgs.Harmless (args : ShowArgs) : Prop :=
  (0 : UInt8) ∉ args.object ∧ Literal args.object ∧ isOption args.object = false

instance (args : ShowArgs) : Decidable args.Harmless := inferInstanceAs (Decidable (_ ∧ _))

theorem runs_iff {words : GitWords} {opts : ProcOpts} :
    Runs words opts ↔
      Shell.read opts.line = .command ([str "git", words.subcommand] ++ words.own ++ words.args) ∧
        operands (words.own ++ words.args) = words.args :=
  ⟨fun runs => ⟨runs.read, runs.operands⟩, fun both => ⟨both.1, both.2⟩⟩

/-- A line that ends in an argument. -/
theorem runs_iff_literal {words : GitWords} {opts : ProcOpts} {arg : Bytes}
    (single : words.args = [arg])
    (line : opts.line = cString (spaced ([str "git", words.subcommand] ++ words.own) ++ arg))
    (literal : ∀ word ∈ [str "git", words.subcommand] ++ words.own, Literal word)
    (clean : (0 : UInt8) ∉ spaced ([str "git", words.subcommand] ++ words.own)) :
    Runs words opts ↔ ((0 : UInt8) ∉ arg ∧ Literal arg) ∧ operands (words.own ++ [arg]) = [arg] := by
  rw [runs_iff, line, single, read_spaced_iff literal clean]

theorem runs_diff_iff (args : DiffArgs) (base : Bytes) :
    Runs args.words (gitOpts base args.cmd) ↔ args.Harmless := by
  obtain ⟨file, staged⟩ := args
  by_cases whole : file = []
  · subst whole
    refine iff_of_true ⟨?_, ?_⟩ (.inl rfl)
    · change Shell.read (cString (str "git " ++ (DiffArgs.mk [] staged).cmd)) = _
      cases staged <;> decide
    · cases staged <;> decide
  · have single : (DiffArgs.mk file staged).words.args = [file] := if_neg whole
    have own : (DiffArgs.mk file staged).words.own =
        (if staged then [str "--cached"] else []) ++ [str "--"] := by
      simp [DiffArgs.words, whole]
    have subcommand : (DiffArgs.mk file staged).words.subcommand = str "diff" := rfl
    have cmd : (DiffArgs.mk file staged).cmd =
        (if staged then str "diff --cached" else str "diff") ++ (str " -- " ++ file) := by
      simp [DiffArgs.cmd, whole]
    have harmless : (DiffArgs.mk file staged).Harmless ↔ (0 : UInt8) ∉ file ∧ Literal file :=
      or_iff_right whole
    rw [harmless]
    refine (runs_iff_literal single ?_ ?_ ?_).trans (and_iff_left ?_)
    · rw [own, ProcOpts.line, gitOpts, cmd]
      cases staged <;> rfl
    · rw [own, subcommand]
      cases staged <;> decide
    · rw [own, subcommand]
      cases staged <;> decide
    · rw [own]
      cases staged <;> rfl

theorem operands_singleton {word : Bytes} : operands [word] = [word] ↔ isOption word = false := by
  unfold operands
  split
  · rename_i delimiter
    subst delimiter
    decide
  · split <;> simp_all [operands]

theorem runs_show_iff (args : ShowArgs) (base : Bytes) :
    Runs args.words (gitOpts base args.cmd) ↔ args.Harmless := by
  have line : (gitOpts base args.cmd).line =
      cString (spaced ([str "git", str "show"] ++ args.words.own) ++ args.object) := by
    rw [ProcOpts.line, gitOpts]
    unfold ShowArgs.cmd ShowArgs.words ShowArgs.object
    split
    · rfl
    · simp only [List.append_assoc]
      rfl
  have literal : ∀ word ∈ [str "git", str "show"] ++ args.words.own, Literal word := by
    unfold ShowArgs.words
    dsimp only
    split <;> decide
  have clean : (0 : UInt8) ∉ spaced ([str "git", str "show"] ++ args.words.own) := by
    unfold ShowArgs.words
    dsimp only
    split <;> decide
  have own : operands (args.words.own ++ [args.object]) = operands [args.object] := by
    unfold ShowArgs.words
    dsimp only
    split <;> rfl
  rw [runs_iff_literal rfl line literal clean, own, operands_singleton, and_assoc]
  rfl

theorem probe_of_readonly {g : Gate} (readonly : g.policyFor .workspace = .allowReadonly)
    {spec : ToolSpec} (workspace : spec.category = .workspace) (readOnly : spec.isReadOnly = true)
    (asked : Nat) (inv : Invocation) (run : ToolResult × List ProcOpts) :
    g.probe asked spec inv run = run := by
  simp [Gate.probe, Gate.check, workspace, readonly, readOnly, ToolResult.blank]

/-- **Under a gate that lets read-only tools through, what the git probes run is the git command
they mean exactly when their arguments are harmless.** -/
theorem readonly_git_iff {g : Gate} (readonly : g.policyFor .workspace = .allowReadonly)
    (runProcess : ProcessRuns) (base : Bytes) (asked : Nat) (inv : Invocation) :
    ((∀ opts ∈ (g.probe asked gitDiffSpec inv (gitDiffRun runProcess base inv)).2,
        Runs (DiffArgs.read inv.argsJson).words opts) ↔ (DiffArgs.read inv.argsJson).Harmless) ∧
      ((∀ opts ∈ (g.probe asked gitShowSpec inv (gitShowRun runProcess base inv)).2,
        Runs (ShowArgs.read inv.argsJson).words opts) ↔ (ShowArgs.read inv.argsJson).Harmless) := by
  constructor
  · rw [probe_of_readonly readonly rfl rfl, gitDiffRun, forall_gitRun]
    exact runs_diff_iff _ base
  · rw [probe_of_readonly readonly rfl rfl, gitShowRun, forall_gitRun]
    exact runs_show_iff _ base

/-- A gate as for a session without writes. -/
def readonlyGate : Gate := ⟨.allowReadonly, [], none⟩

/-- Every process succeeds and says nothing. -/
def quietRuns : ProcessRuns := fun _ _ => some ⟨0, []⟩

def plainCall : Invocation := ⟨str "git.diff", str "\x7b\"file\":\"src/a.c\"\x7d"⟩

theorem readonly_git_iff_plain :
    (DiffArgs.read plainCall.argsJson).file = str "src/a.c" ∧
      ∀ opts ∈ (readonlyGate.probe 0 gitDiffSpec plainCall
        (gitDiffRun quietRuns (str "/w") plainCall)).2, Runs (DiffArgs.read plainCall.argsJson).words opts :=
  ⟨by decide +kernel, (readonly_git_iff rfl quietRuns (str "/w") 0 plainCall).1.mpr (by decide +kernel)⟩

/-- A file name that ends the command and starts another one. -/
def secondCommand : Invocation := ⟨str "git.diff", str "\x7b\"file\":\"a; rm x\"\x7d"⟩

theorem readonly_git_fails : ¬ ∀ (g : Gate) (runProcess : ProcessRuns) (base : Bytes) (asked : Nat)
    (inv : Invocation), g.policyFor .workspace = .allowReadonly →
    ∀ opts ∈ (g.probe asked gitDiffSpec inv (gitDiffRun runProcess base inv)).2,
      Runs (DiffArgs.read inv.argsJson).words opts := by
  intro claim
  have runs := claim readonlyGate quietRuns (str "/w") 0 secondCommand rfl
  rw [probe_of_readonly rfl rfl rfl, gitDiffRun, forall_gitRun, runs_diff_iff] at runs
  exact absurd runs (by decide +kernel)

end Opencodepp.Tools
