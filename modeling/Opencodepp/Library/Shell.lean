import Opencodepp.Library.ByteString

/-!
# Words of a shell command line

How a POSIX shell reads a line that is meant as one simple command: bytes are collected into
words, with the three ways of quoting, and the reading stops at the first thing that makes the
line more than its words.  What an expansion yields depends on the variables, the commands and
the directory the shell finds, so a line with one has no words of its own.  Assignments, aliases
and reserved words matter in the first word only, which the caller is to choose.

A text at the end of a line is read as exactly one word, itself, when it is `Literal` and only
then (`scan_eq_iff_literal`): quoting takes its own bytes away, so a text that needs quoting
never comes out whole.
-/

set_option autoImplicit false

namespace Opencodepp.Library.Shell

/-- What a line is to the shell. -/
inductive Reading
  /-- One simple command of these words. -/
  | command (words : List Bytes)
  /-- There is an operator or a newline: a list, a pipeline, a redirection or a subshell. -/
  | compound
  /-- There is a parameter, a command, a tilde or a pattern to expand. -/
  | expands
  /-- A quotation is not closed. -/
  | unfinished
  deriving Repr, DecidableEq

/-- What a byte means outside of quotation. -/
inductive ByteClass
  | blank
  | operator
  | expansion
  | apostrophe
  | quote
  | backslash
  | pattern
  | bracket
  | hash
  | tilde
  | plain
  deriving Repr, DecidableEq

def classOf (b : UInt8) : ByteClass :=
  if b = ch ' ' ∨ b = ch '\t' then .blank
  else if b = ch '|' ∨ b = ch '&' ∨ b = ch ';' ∨ b = ch '<' ∨ b = ch '>' ∨ b = ch '(' ∨
    b = ch ')' ∨ b = ch '\n' then .operator
  else if b = ch '$' ∨ b = 0x60 then .expansion
  else if b = 0x27 then .apostrophe
  else if b = 0x22 then .quote
  else if b = 0x5c then .backslash
  else if b = ch '*' ∨ b = ch '?' then .pattern
  else if b = ch '[' then .bracket
  else if b = ch '#' then .hash
  else if b = ch '~' then .tilde
  else .plain

/-- Whether a byte ends a word. -/
def endsWord (b : UInt8) : Bool := classOf b = .blank || classOf b = .operator

/-- Whether a bracket expression with an element is closed in its word and path component. -/
def closes : Bytes → Bool
  | [] => false
  | c :: rest =>
      if c = ch ']' then true
      else if c = slash || endsWord c then false
      else closes rest

/-- Whether a bracket expression starts before a text.  Its first element may be any byte, also
the closing bracket. -/
def opensBracket (rest : Bytes) : Bool :=
  match (if rest.head? = some (ch '!') then rest.tail else rest) with
  | [] => false
  | c :: rest => c ≠ slash && !endsWord c && closes rest

/-- Where a reading is: in which quotation, and what there is of the current word. -/
inductive Mode
  | unquoted (word : Option Bytes)
  | escaped (word : Option Bytes)
  | single (word : Bytes)
  | double (word : Bytes)
  | doubleEscaped (word : Bytes)
  deriving Repr, DecidableEq

/-- The word with another byte. -/
def grown (word : Option Bytes) (c : UInt8) : Mode := .unquoted (some (word.getD [] ++ [c]))

/-- Whether a backslash in double quotes quotes a byte. -/
def quotable (c : UInt8) : Bool := classOf c = .expansion || c = 0x22 || c = 0x5c

/-- Read the rest of a line after the words so far. -/
def scan : List Bytes → Mode → Bytes → Reading
  | done, .unquoted word, [] => .command (done ++ word.toList)
  | _, _, [] => .unfinished
  | done, .unquoted word, c :: rest =>
      match classOf c with
      | .blank => scan (done ++ word.toList) (.unquoted none) rest
      | .operator => .compound
      | .expansion => .expands
      | .apostrophe => scan done (.single (word.getD [])) rest
      | .quote => scan done (.double (word.getD [])) rest
      | .backslash => scan done (.escaped word) rest
      | .pattern => .expands
      | .bracket => if opensBracket rest then .expands else scan done (grown word c) rest
      | .hash =>
          -- a comment reaches to the end of the line
          if word = none then (if ch '\n' ∈ rest then .compound else .command done)
          else scan done (grown word c) rest
      | .tilde => if word = none then .expands else scan done (grown word c) rest
      | .plain => scan done (grown word c) rest
  | done, .escaped word, c :: rest =>
      if c = ch '\n' then scan done (.unquoted word) rest else scan done (grown word c) rest
  | done, .single word, c :: rest =>
      if c = 0x27 then scan done (.unquoted (some word)) rest
      else scan done (.single (word ++ [c])) rest
  | done, .double word, c :: rest =>
      if c = 0x22 then scan done (.unquoted (some word)) rest
      else if classOf c = .expansion then .expands
      else if c = 0x5c then scan done (.doubleEscaped word) rest
      else scan done (.double (word ++ [c])) rest
  | done, .doubleEscaped word, c :: rest =>
      if c = ch '\n' then scan done (.double word) rest
      else if quotable c then scan done (.double (word ++ [c])) rest
      else scan done (.double (word ++ [0x5c, c])) rest

/-- How the shell reads a line. -/
def read (line : Bytes) : Reading := scan [] (.unquoted none) line

/-! ## Literal words -/

/-- Whether a byte inside of a word means itself before the rest. -/
def keeps (c : UInt8) (rest : Bytes) : Bool :=
  match classOf c with
  | .plain | .hash | .tilde => true
  | .bracket => !opensBracket rest
  | _ => false

/-- Nothing of a text, inside of a word, means anything but itself. -/
def Plain : Bytes → Bool
  | [] => true
  | c :: rest => keeps c rest && Plain rest

/-- A text stands for itself as a word. -/
def Literal (text : Bytes) : Prop :=
  text ≠ [] ∧ text.head? ≠ some (ch '#') ∧ text.head? ≠ some (ch '~') ∧ Plain text = true

instance (text : Bytes) : Decidable (Literal text) := inferInstanceAs (Decidable (_ ∧ _))

@[simp] theorem endsWord_blank : endsWord (ch ' ') = true := by decide

theorem closes_append_blank (text rest : Bytes) :
    closes (text ++ ch ' ' :: rest) = closes text := by
  induction text with
  | nil => rfl
  | cons c text ih => simp only [List.cons_append, closes, ih]

theorem opensBracket_append_blank (text rest : Bytes) :
    opensBracket (text ++ ch ' ' :: rest) = opensBracket text := by
  cases text with
  | nil => rfl
  | cons c text =>
      unfold opensBracket
      by_cases negated : c = ch '!'
      · cases text with
        | nil => simp [negated]
        | cons d text => simp [negated, closes_append_blank]
      · simp [negated, closes_append_blank]

/-- A plain text grows the word by itself. -/
theorem scan_plain_append {done : List Bytes} {tail : Bytes}
    (ending : tail = [] ∨ ∃ rest, tail = ch ' ' :: rest) :
    ∀ {text word : Bytes}, Plain text = true →
      scan done (.unquoted (some word)) (text ++ tail) =
        scan done (.unquoted (some (word ++ text))) tail := by
  intro text
  induction text with
  | nil => intro word _; simp
  | cons c text ih =>
      intro word plain
      have lookahead : opensBracket (text ++ tail) = opensBracket text := by
        obtain rfl | ⟨rest, rfl⟩ := ending
        · rw [List.append_nil]
        · exact opensBracket_append_blank text rest
      rw [Plain, Bool.and_eq_true] at plain
      obtain ⟨first, plain⟩ := plain
      have rest : scan done (.unquoted (some (word ++ [c]))) (text ++ tail) = _ := ih plain
      rw [List.append_assoc, List.singleton_append] at rest
      rw [List.cons_append, scan]
      cases kind : classOf c <;> simp_all [grown, keeps]

theorem classOf_hash {c : UInt8} (kind : classOf c = .hash) : c = ch '#' := by
  unfold classOf at kind
  repeat' split at kind
  all_goals first | assumption | cases kind

theorem classOf_tilde {c : UInt8} (kind : classOf c = .tilde) : c = ch '~' := by
  unfold classOf at kind
  repeat' split at kind
  all_goals first | assumption | cases kind

/-- A literal text is read as a word. -/
theorem scan_literal_append {done : List Bytes} {text tail : Bytes}
    (ending : tail = [] ∨ ∃ rest, tail = ch ' ' :: rest) (literal : Literal text) :
    scan done (.unquoted none) (text ++ tail) = scan done (.unquoted (some text)) tail := by
  obtain ⟨nonempty, noHash, noTilde, plain⟩ := literal
  cases text with
  | nil => exact absurd rfl nonempty
  | cons c text =>
      -- the first byte starts the word as it would continue one
      have started : scan done (.unquoted none) (c :: (text ++ tail)) =
          scan done (.unquoted (some [])) (c :: (text ++ tail)) := by
        simp only [scan]
        cases kind : classOf c with
        | hash => exact absurd (classOf_hash kind) (by simpa using noHash)
        | tilde => exact absurd (classOf_tilde kind) (by simpa using noTilde)
        | plain | bracket => rfl
        | _ => simp [Plain, keeps, kind] at plain
      have whole : scan done (.unquoted (some [])) (c :: text ++ tail) = _ :=
        scan_plain_append ending plain
      rw [List.cons_append, started, ← List.cons_append, whole, List.nil_append]

/-! ## Only literal words -/

/-- The bytes a reading may have collected for its word. -/
def Mode.size : Mode → Nat
  | .unquoted word | .escaped word => (word.getD []).length
  | .single word | .double word => word.length
  | .doubleEscaped word => word.length + 1

theorem size_grown (word : Option Bytes) (c : UInt8) :
    (grown word c).size = (Mode.unquoted word).size + 1 := by
  simp [grown, Mode.size]

theorem length_flatten_append (done : List Bytes) (word : Option Bytes) :
    (done ++ word.toList).flatten.length = done.flatten.length + (Mode.unquoted word).size := by
  cases word <;> simp [Mode.size]

/-- What a byte outside of quotation does in a command: it joins the word, starts a comment, or
is lost. -/
theorem scan_unquoted_cons {done words : List Bytes} {word : Option Bytes} {c : UInt8}
    {rest : Bytes} (read : scan done (.unquoted word) (c :: rest) = .command words) :
    (scan done (grown word c) rest = .command words ∧
      (word = none → classOf c ≠ .hash ∧ classOf c ≠ .tilde) ∧ keeps c rest = true) ∨
    words = done ∨
    ∃ done' mode, scan done' mode rest = .command words ∧
      done'.flatten.length + mode.size = done.flatten.length + (Mode.unquoted word).size := by
  simp only [scan] at read
  cases kind : classOf c <;> simp only [kind] at read
  case blank =>
    exact .inr (.inr ⟨_, _, read, by rw [length_flatten_append]; rfl⟩)
  case operator | expansion | pattern => cases read
  case apostrophe | quote | backslash => exact .inr (.inr ⟨_, _, read, rfl⟩)
  case bracket =>
    split at read
    · cases read
    · rename_i shut
      exact .inl ⟨read, by simp, by simpa [keeps, kind] using shut⟩
  case hash =>
    split at read
    · split at read
      · cases read
      · cases read
        exact .inr (.inl rfl)
    · rename_i inside
      exact .inl ⟨read, fun none => absurd none inside, by simp [keeps, kind]⟩
  case tilde =>
    split at read
    · cases read
    · rename_i inside
      exact .inl ⟨read, fun none => absurd none inside, by simp [keeps, kind]⟩
  case plain => exact .inl ⟨read, by simp, by simp [keeps, kind]⟩

/-- The words together are not longer than what they were read from. -/
theorem length_of_scan : ∀ {text : Bytes} {done words : List Bytes} {mode : Mode},
    scan done mode text = .command words →
    words.flatten.length ≤ done.flatten.length + mode.size + text.length := by
  intro text
  induction text with
  | nil =>
      intro done words mode read
      cases mode with
      | unquoted word =>
          simp only [scan, Reading.command.injEq] at read
          rw [← read, length_flatten_append]
          exact Nat.le_refl _
      | _ => cases read
  | cons c rest ih =>
      intro done words mode read
      rw [List.length_cons]
      cases mode with
      | unquoted word =>
          obtain ⟨later, _⟩ | rfl | ⟨done', mode, later, same⟩ := scan_unquoted_cons read
          · have := ih later
            rw [size_grown] at this
            omega
          · omega
          · have := ih later
            omega
      | escaped word =>
          simp only [scan] at read
          split at read
          · have := ih read
            simp only [Mode.size] at this ⊢
            omega
          · have := ih read
            rw [size_grown] at this
            simp only [Mode.size] at this ⊢
            omega
      | single word =>
          simp only [scan] at read
          split at read <;>
            · have := ih read
              simp [Mode.size] at this ⊢
              omega
      | double word =>
          simp only [scan] at read
          split at read
          · have := ih read
            simp [Mode.size] at this ⊢
            omega
          split at read
          · cases read
          split at read <;>
            · have := ih read
              simp [Mode.size] at this ⊢
              omega
      | doubleEscaped word =>
          simp only [scan] at read
          split at read
          · have := ih read
            simp [Mode.size] at this ⊢
            omega
          split at read <;>
            · have := ih read
              simp [Mode.size] at this ⊢
              omega

/-- A text that comes out whole is plain. -/
theorem plain_of_scan : ∀ {text : Bytes} {done words : List Bytes} {word : Option Bytes},
    scan done (.unquoted word) text = .command words →
    words.flatten.length = done.flatten.length + (Mode.unquoted word).size + text.length →
    Plain text = true ∧ (word = none → text.head? ≠ some (ch '#') ∧ text.head? ≠ some (ch '~')) := by
  intro text
  induction text with
  | nil =>
      intro done words word _ _
      exact ⟨rfl, fun _ => ⟨by simp, by simp⟩⟩
  | cons c rest ih =>
      intro done words word read whole
      rw [List.length_cons] at whole
      obtain ⟨later, start, kept⟩ | rfl | ⟨done', mode, later, same⟩ := scan_unquoted_cons read
      · have size := size_grown word c
        have tail := (ih later (by rw [← grown, size]; omega)).1
        refine ⟨by rw [Plain, kept, tail]; rfl, fun none => ?_⟩
        obtain ⟨noHash, noTilde⟩ := start none
        constructor
        · rintro same
          cases same
          exact noHash (by decide)
        · rintro same
          cases same
          exact noTilde (by decide)
      · omega
      · have := length_of_scan later
        omega

/-- **A text is read as one word, itself, exactly when it is literal.** -/
theorem scan_eq_iff_literal {done : List Bytes} {text : Bytes} :
    scan done (.unquoted none) text = .command (done ++ [text]) ↔ Literal text := by
  constructor
  · intro read
    obtain ⟨plain, start⟩ := plain_of_scan read (by simp [Mode.size])
    refine ⟨?_, (start rfl).1, (start rfl).2, plain⟩
    rintro rfl
    simp [scan] at read
  · intro literal
    have whole : scan done (.unquoted none) (text ++ []) = _ := scan_literal_append (.inl rfl) literal
    rw [List.append_nil] at whole
    rw [whole]
    rfl

/-- A literal word before a blank. -/
theorem scan_word {done : List Bytes} {word rest : Bytes} (literal : Literal word) :
    scan done (.unquoted none) (word ++ ch ' ' :: rest) =
      scan (done ++ [word]) (.unquoted none) rest := by
  rw [scan_literal_append (.inr ⟨rest, rfl⟩) literal]
  rfl

theorem scan_words {rest : Bytes} : ∀ {words done : List Bytes}, (∀ word ∈ words, Literal word) →
    scan done (.unquoted none) (words.flatMap (· ++ [ch ' ']) ++ rest) =
      scan (done ++ words) (.unquoted none) rest := by
  intro words
  induction words with
  | nil => simp
  | cons word words ih =>
      intro done literal
      rw [List.forall_mem_cons] at literal
      have first : scan done (.unquoted none)
          (word ++ ch ' ' :: (words.flatMap (· ++ [ch ' ']) ++ rest)) = _ := scan_word literal.1
      have shape : (word :: words).flatMap (· ++ [ch ' ']) ++ rest =
          word ++ ch ' ' :: (words.flatMap (· ++ [ch ' ']) ++ rest) := by simp
      rw [shape, first, ih literal.2, List.append_assoc, List.singleton_append]

/-- A text that is cut short on its way is not read whole. -/
theorem scan_ne_of_shorter {done : List Bytes} {text cut : Bytes} (shorter : cut.length < text.length) :
    scan done (.unquoted none) cut ≠ .command (done ++ [text]) := by
  intro read
  have := length_of_scan read
  simp [Mode.size] at this
  omega

end Opencodepp.Library.Shell
