import Opencodepp.Library.Brackets
import Opencodepp.Verify.Lexing

/-!
# What passes the syntax stage

A content is free of issues, but for double semicolons, exactly when no literal and no block
comment is left unterminated and the delimiters outside comments and literals are properly nested
(`checkSyntax_passes_iff`).  The faults are read off the marked bytes with a stack; that they show
no fault of nesting is that the stack settles on the delimiters alone.
-/

set_option autoImplicit false

namespace Opencodepp.Verify

open Opencodepp.Library

/-! ## Terminated contents and their delimiters -/

/-- No line break cuts a literal off, and the content does not end within a literal or a block
comment. -/
def Terminated (content : Bytes) : Prop :=
  (∀ mark ∈ marks content, ∀ quote, mark.2 ≠ .broken quote) ∧
    (lastMode content = .code ∨ lastMode content = .line)

/-- The delimiters, each with the one that closes it. -/
def delimiterPairs : List (UInt8 × UInt8) :=
  [(ch '(', ch ')'), (ch '[', ch ']'), (ch '{', ch '}')]

def isDelimiter (c : UInt8) : Bool := delimiterPairs.any fun pair => c = pair.1 ∨ c = pair.2

/-- The delimiters among marked bytes. -/
def delimitersOf (marked : List Mark) : Bytes :=
  (marked.filter fun mark => mark.2 = .code ∧ isDelimiter mark.1).map (·.1)

/-- The delimiters outside comments and literals. -/
def delimiters (content : Bytes) : Bytes := delimitersOf (marks content)

/-- Delimiters that are properly nested and matched. -/
inductive Nested : Bytes → Prop where
  | nil : Nested []
  | pair {opening closing : UInt8} {inner rest : Bytes} : (opening, closing) ∈ delimiterPairs →
      Nested inner → Nested rest → Nested (opening :: (inner ++ closing :: rest))

/-! ### The scanner's delimiters are those of the table -/

theorem isDelimiter_iff {c : UInt8} :
    isDelimiter c = true ↔ isOpening c = true ∨ isClosing c = true := by
  unfold isDelimiter delimiterPairs isOpening isClosing
  simp only [List.any_cons, List.any_nil, Bool.or_eq_true, Bool.or_false, decide_eq_true_iff,
    beq_iff_eq]
  tauto

theorem isBalancedClose_iff {opening closing : UInt8} :
    isBalancedClose opening closing = true ↔ (opening, closing) ∈ delimiterPairs := by
  unfold isBalancedClose delimiterPairs
  simp only [Bool.or_eq_true, Bool.and_eq_true, beq_iff_eq, List.mem_cons, Prod.mk.injEq,
    List.not_mem_nil, or_false, or_assoc]

theorem opens_of_pair {opening closing : UInt8} (pair : (opening, closing) ∈ delimiterPairs) :
    isOpening opening = true ∧ isOpening closing = false := by
  unfold delimiterPairs at pair
  simp only [List.mem_cons, Prod.mk.injEq, List.not_mem_nil, or_false] at pair
  obtain ⟨rfl, rfl⟩ | ⟨rfl, rfl⟩ | ⟨rfl, rfl⟩ := pair <;> exact ⟨rfl, rfl⟩

theorem nested_iff_balanced {word : Bytes} :
    Nested word ↔ Brackets.Balanced isOpening isBalancedClose word := by
  constructor
  · intro nested
    induction nested with
    | nil => exact .nil
    | pair pair _ _ inside behind =>
        obtain ⟨opens, closes⟩ := opens_of_pair pair
        exact .nest opens closes (isBalancedClose_iff.mpr pair) inside behind
  · intro balanced
    induction balanced with
    | nil => exact .nil
    | nest _ _ partners _ _ inside behind =>
        exact .pair (isBalancedClose_iff.mp partners) inside behind

/-- What the stack of open delimiters makes of more of them. -/
abbrev settleDelimiters : Bytes → Bytes → Option Bytes :=
  Brackets.settle isOpening isBalancedClose

/-! ## Faults that are no double semicolons -/

/-- No other message is that of a double semicolon. -/
theorem message_eq_doubleSemicolon_iff (kind : FaultKind) :
    kind.message = doubleSemicolon ↔ kind = .doubleSemicolon := by
  have begins {first second : Bytes} (same : first = second) : first.head? = second.head? :=
    congrArg List.head? same
  constructor
  · intro same
    have heads := begins same
    have starts : ¬some (ch 'u') = some (ch 'd') := by decide
    cases kind with
    | doubleSemicolon => rfl
    | unexpected => exact absurd heads starts
    | unmatched => exact absurd heads starts
    | unterminatedBlock => exact absurd heads starts
    | unclosed => exact absurd heads starts
    | unterminatedLiteral quote => cases quote <;> exact absurd heads starts
  · rintro rfl
    rfl

/-- Only double semicolons. -/
def Harmless (found : List Fault) : Prop := ∀ f ∈ found, f.kind = .doubleSemicolon

theorem harmless_append {first second : List Fault} :
    Harmless (first ++ second) ↔ Harmless first ∧ Harmless second := List.forall_mem_append

theorem harmless_nil : Harmless [] := nofun

theorem not_harmless_singleton {f : Fault} (other : f.kind ≠ .doubleSemicolon) :
    ¬Harmless [f] := fun harmless => other (harmless f (List.mem_singleton.mpr rfl))

theorem delimitersOf_cons_of_other {mark : Mark} (rest : List Mark)
    (other : ¬(mark.2 = .code ∧ (isOpening mark.1 = true ∨ isClosing mark.1 = true))) :
    delimitersOf (mark :: rest) = delimitersOf rest := by
  rw [← isDelimiter_iff] at other
  unfold delimitersOf
  rw [List.filter_cons_of_neg (by simpa using other)]

theorem delimitersOf_cons {mark : Mark} (rest : List Mark) (isCode : mark.2 = .code)
    (delimits : isOpening mark.1 = true ∨ isClosing mark.1 = true) :
    delimitersOf (mark :: rest) = mark.1 :: delimitersOf rest := by
  rw [← isDelimiter_iff] at delimits
  unfold delimitersOf
  rw [List.filter_cons_of_pos (by simpa using ⟨isCode, delimits⟩)]
  rfl

/-- **The marked bytes show no fault of nesting, and leave nothing open, exactly when they hold no
cut off literal and the stack settles on their delimiters.** -/
theorem harmless_faultsIn_iff (marked : List Mark) :
    ∀ (behind : List Mark) (opened : List (List Mark × UInt8)),
      Harmless (faultsIn behind opened marked).1 ∧ (faultsIn behind opened marked).2 = [] ↔
        (∀ mark ∈ marked, ∀ quote, mark.2 ≠ .broken quote) ∧
          settleDelimiters (opened.map (·.2)) (delimitersOf marked) = some [] := by
  induction marked with
  | nil =>
      intro behind opened
      constructor
      · rintro ⟨-, nothing⟩
        exact ⟨nofun, congrArg some (congrArg (List.map (·.2)) nothing)⟩
      · rintro ⟨-, settled⟩
        exact ⟨harmless_nil, List.map_eq_nil_iff.mp (Option.some.inj settled)⟩
  | cons mark rest inductionHypothesis =>
      intro behind opened
      obtain ⟨c, shade⟩ := mark
      rw [faultsIn_cons, harmless_append, List.forall_mem_cons, and_assoc, inductionHypothesis]
      -- a byte that is no delimiter and cuts nothing off
      have passed (now : (faultsAt behind opened (c, shade) (rest.head?.map (·.1))).2 = opened)
          (harmless : Harmless (faultsAt behind opened (c, shade) (rest.head?.map (·.1))).1)
          (unbroken : ∀ quote, shade ≠ .broken quote)
          (other : ¬(shade = .code ∧ (isOpening c = true ∨ isClosing c = true))) :
          (Harmless (faultsAt behind opened (c, shade) (rest.head?.map (·.1))).1 ∧
            (∀ mark ∈ rest, ∀ quote, mark.2 ≠ .broken quote) ∧
              settleDelimiters ((faultsAt behind opened (c, shade)
                (rest.head?.map (·.1))).2.map (·.2)) (delimitersOf rest) = some []) ↔
            ((∀ quote, shade ≠ .broken quote) ∧
              ∀ mark ∈ rest, ∀ quote, mark.2 ≠ .broken quote) ∧
              settleDelimiters (opened.map (·.2)) (delimitersOf ((c, shade) :: rest)) =
                some [] := by
        rw [now, delimitersOf_cons_of_other rest other, and_assoc]
        exact ⟨fun ⟨_, later⟩ => ⟨unbroken, later⟩, fun ⟨_, later⟩ => ⟨harmless, later⟩⟩
      cases shade with
      | comment => exact passed rfl harmless_nil nofun nofun
      | literal => exact passed rfl harmless_nil nofun nofun
      | escaped => exact passed rfl harmless_nil nofun nofun
      | broken quote =>
          constructor
          · rintro ⟨harmless, -⟩
            exact absurd harmless (not_harmless_singleton nofun)
          · rintro ⟨⟨unbroken, -⟩, -⟩
            exact absurd rfl (unbroken quote)
      | code =>
          cases isOpen : isOpening c with
          | true =>
              have pushed : faultsAt behind opened (c, .code) (rest.head?.map (·.1)) =
                  ([], (behind, c) :: opened) := if_pos isOpen
              rw [pushed, delimitersOf_cons rest rfl (.inl isOpen), settleDelimiters,
                Brackets.settle_opening isOpen]
              exact ⟨fun ⟨_, later⟩ => ⟨⟨nofun, later.1⟩, later.2⟩,
                fun ⟨unbroken, settled⟩ => ⟨harmless_nil, unbroken.2, settled⟩⟩
          | false =>
              cases isClose : isClosing c with
              | true =>
                  rw [delimitersOf_cons rest rfl (.inr isClose)]
                  unfold faultsAt settleDelimiters
                  dsimp only
                  rw [isOpen, isClose, if_neg Bool.false_ne_true, if_pos rfl]
                  cases opened with
                  | nil =>
                      rw [List.map_nil, Brackets.settle_closing_nil isOpen]
                      constructor
                      · rintro ⟨harmless, -⟩
                        exact absurd harmless (not_harmless_singleton nofun)
                      · exact fun ⟨_, settled⟩ => nomatch settled
                  | cons top below =>
                      rw [List.map_cons, Brackets.settle_closing_cons isOpen]
                      dsimp only
                      cases isBalancedClose top.2 c with
                      | true =>
                          exact ⟨fun ⟨_, later⟩ => ⟨⟨nofun, later.1⟩, later.2⟩,
                            fun ⟨unbroken, settled⟩ => ⟨harmless_nil, unbroken.2, settled⟩⟩
                      | false =>
                          constructor
                          · rintro ⟨harmless, -⟩
                            exact absurd harmless (not_harmless_singleton nofun)
                          · exact fun ⟨_, settled⟩ => nomatch settled
              | false =>
                  have other : ¬(Shade.code = .code ∧
                      (isOpening c = true ∨ isClosing c = true)) := by
                    rw [isOpen, isClose]
                    decide
                  refine passed ?_ ?_ nofun other
                  · unfold faultsAt
                    dsimp only
                    rw [isOpen, isClose, if_neg Bool.false_ne_true, if_neg Bool.false_ne_true]
                    split <;> rfl
                  · unfold faultsAt
                    dsimp only
                    rw [isOpen, isClose, if_neg Bool.false_ne_true, if_neg Bool.false_ne_true]
                    split
                    · exact fun f member => by rw [List.mem_singleton.mp member]
                    · exact harmless_nil

/-! ## The verdict -/

/-- The content ends in the middle of no two bytes. -/
theorem lastMode_between (content : Bytes) :
    (∀ block, lastMode content ≠ .opening block) ∧ lastMode content ≠ .closing := by
  have started : Tracks Scanner.start [] [] [] := ⟨rfl, rfl, rfl, rfl, nofun⟩
  have inCode : InMode Scanner.start .code := ⟨rfl, rfl⟩
  have inMode : InMode _ (lastMode content) := (loop_tracks none content started inCode rfl).1
  constructor
  · intro block same
    rw [same] at inMode
    exact inMode
  · intro same
    rw [same] at inMode
    exact inMode

theorem harmless_faultsOver_iff (content : Bytes) :
    Harmless (faultsOver (marks content) (lastMode content)) ↔
      lastMode content = .code ∨ lastMode content = .line := by
  obtain ⟨noOpening, noClosing⟩ := lastMode_between content
  generalize lastMode content = mode at noOpening noClosing
  cases mode with
  | code => exact ⟨fun _ => .inl rfl, fun _ => harmless_nil⟩
  | line => exact ⟨fun _ => .inr rfl, fun _ => harmless_nil⟩
  | opening block => exact absurd rfl (noOpening block)
  | closing => exact absurd rfl noClosing
  | block => exact ⟨fun harmless => absurd harmless (not_harmless_singleton nofun), nofun⟩
  | literal => exact ⟨fun harmless => absurd harmless (not_harmless_singleton nofun), nofun⟩
  | escape => exact ⟨fun harmless => absurd harmless (not_harmless_singleton nofun), nofun⟩

/-- What is left open is always a fault. -/
theorem harmless_unclosed_iff (opened : List (List Mark × UInt8)) :
    Harmless (opened.reverse.map fun o => ⟨o.1, .unclosed o.2⟩) ↔ opened = [] := by
  constructor
  · intro harmless
    cases opened with
    | nil => rfl
    | cons o rest =>
        have member : o ∈ (o :: rest).reverse := List.mem_reverse.mpr (List.mem_cons_self ..)
        exact nomatch harmless _ (List.mem_map_of_mem member)
  · rintro rfl
    exact harmless_nil

/-- **The only issues are double semicolons exactly when literals and block comments are
terminated and the delimiters outside them are properly nested.** -/
theorem checkSyntax_passes_iff (content file : Bytes) :
    (∀ issue ∈ checkSyntax content file, issue.msg = doubleSemicolon) ↔
      Terminated content ∧ Nested (delimiters content) := by
  have reported : (∀ issue ∈ checkSyntax content file, issue.msg = doubleSemicolon) ↔
      Harmless (faults content) := by
    rw [checkSyntax_eq, List.forall_mem_map]
    exact forall₂_congr fun f _ => message_eq_doubleSemicolon_iff f.kind
  have nesting := harmless_faultsIn_iff (marks content) [] []
  rw [reported]
  unfold faults
  rw [harmless_append, harmless_append, harmless_faultsOver_iff, harmless_unclosed_iff]
  unfold Terminated
  rw [nested_iff_balanced, ← Brackets.settle_iff_balanced]
  constructor
  · rintro ⟨⟨harmless, atEnd⟩, nothing⟩
    obtain ⟨unbroken, settled⟩ := nesting.mp ⟨harmless, nothing⟩
    exact ⟨⟨unbroken, atEnd⟩, settled⟩
  · rintro ⟨⟨unbroken, atEnd⟩, settled⟩
    obtain ⟨harmless, nothing⟩ := nesting.mpr ⟨unbroken, settled⟩
    exact ⟨⟨harmless, atEnd⟩, nothing⟩

end Opencodepp.Verify
