import Opencodepp.Graph.Places
import Opencodepp.Library.Accesses

/-!
# Every access of the extractors

The extractors walk over text by positions.  In `Scan` they are once more as the source has them,
with every index and every part of a text checked: here what all of them use, the mask, the lines,
the words and the calls.  Each comes to what `Graph` says of it, and strays nowhere.
-/

set_option autoImplicit false

namespace Opencodepp.Graph.Scan

open Opencodepp.Core
open Opencodepp.Library
open Opencodepp.Library.Checked

/-! ## The mask -/

/-- The byte behind a position; zero at the end. -/
def next (code : Bytes) (i : Nat) : Checked UInt8 :=
  if i + 1 < code.length then item code (i + 1) else .ok 0

/-- Blank a byte that is not to be kept. -/
def blankUnless (keep : Bool) (code : Bytes) (i : Nat) : Checked Bytes :=
  if keep then .ok code else setItem code i blank

/-- One round of the loop over the bytes, at a byte; in a literal, of the inner loop. -/
def maskRound (loop : Mask → Bytes → Nat → Checked Bytes) (mode : Mask) (code : Bytes) (i : Nat)
    (c : UInt8) : Checked Bytes :=
  match mode with
  | .literal quote =>
      if c = ch '\\' then do
        let code ← blankUnless (code.length ≤ i + 1) code (i + 1)
        loop mode code (i + 2)
      else if c = quote then do
        let code ← setItem code i blank
        loop .code code (i + 1)
      else do
        let code ← blankUnless (c = newline) code i
        loop mode code (i + 1)
  | .lineComment => do
      let _ ← next code i
      if c = newline then loop .code code (i + 1)
      else do
        let code ← setItem code i blank
        loop mode code (i + 1)
  | .blockComment => do
      let nx ← next code i
      if c = ch '*' ∧ nx = ch '/' then do
        let code ← setItem code i blank
        let code ← setItem code (i + 1) blank
        loop .code code (i + 2)
      else do
        let code ← blankUnless (c = newline) code i
        loop mode code (i + 1)
  | .code => do
      let nx ← next code i
      if c = ch '/' ∧ nx = ch '/' then do
        let code ← setItem code i blank
        let code ← setItem code (i + 1) blank
        loop .lineComment code (i + 2)
      else if c = ch '/' ∧ nx = ch '*' then do
        let code ← setItem code i blank
        let code ← setItem code (i + 1) blank
        loop .blockComment code (i + 2)
      else if c = ch '"' ∨ c = ch '\'' then do
        let code ← setItem code i blank
        loop (.literal c) code (i + 1)
      else loop mode code (i + 1)

/-- The loop over the bytes.  Every round passes one, so that the length is fuel enough. -/
def maskLoop : Nat → Mask → Bytes → Nat → Checked Bytes
  | 0, _, code, _ => .ok code
  | fuel + 1, mode, code, i =>
      if i < code.length then do
        let c ← item code i
        maskRound (maskLoop fuel) mode code i c
      else .ok code

def maskCommentsAndStrings (code : Bytes) : Checked Bytes :=
  maskLoop code.length .code code 0

/-- A state of the scan that a text can come to. -/
def Proper : Mask → Prop
  | .literal quote => quote = ch '"' ∨ quote = ch '\''
  | _ => True

section Here

variable (done rest : Bytes) (c d b : UInt8)

theorem item_here : item (done ++ c :: rest) done.length = .ok c :=
  item_of_drop (List.drop_left ..)

theorem next_here : next (done ++ c :: rest) done.length = .ok (rest.headD 0) := by
  unfold next
  cases rest with
  | nil => rw [if_neg (by simp)]; rfl
  | cons d rest =>
      have left : (done ++ c :: d :: rest).drop (done.length + 1) = d :: rest := by
        rw [← List.drop_drop, List.drop_left]
        rfl
      rw [if_pos (by simp)]
      exact item_of_drop left

theorem set_here : setItem (done ++ c :: rest) done.length b = .ok (done ++ b :: rest) := by
  rw [setItem_of_lt (by simp)]
  simp

theorem set_next :
    setItem (done ++ c :: d :: rest) (done.length + 1) b = .ok (done ++ c :: b :: rest) := by
  rw [setItem_of_lt (by simp)]
  simp

end Here

/-! ### What the loop makes of what is left -/

/-- The loop masks what is left of a text whose first bytes are done. -/
def Masked (fuel : Nat) (mode : Mask) (rest : Bytes) : Prop :=
  ∀ done, maskLoop fuel mode (done ++ rest) done.length = .ok (done ++ maskFrom mode rest)

section Round

variable {fuel : Nat} (done : Bytes)

theorem maskLoop_cons (mode : Mask) (c : UInt8) (rest : Bytes) :
    maskLoop (fuel + 1) mode (done ++ c :: rest) done.length =
      maskRound (maskLoop fuel) mode (done ++ c :: rest) done.length c := by
  rw [maskLoop, if_pos (by simp), bind_of_ok (item_here done rest c)]

theorem Masked.behind_one {mode : Mask} {rest : Bytes} (masked : Masked fuel mode rest)
    (b : UInt8) : maskLoop fuel mode (done ++ b :: rest) (done.length + 1) =
      .ok (done ++ b :: maskFrom mode rest) := by
  simpa using masked (done ++ [b])

theorem Masked.behind_two {mode : Mask} {rest : Bytes} (masked : Masked fuel mode rest)
    (b c : UInt8) : maskLoop fuel mode (done ++ b :: c :: rest) (done.length + 2) =
      .ok (done ++ b :: c :: maskFrom mode rest) := by
  simpa using masked (done ++ [b, c])

theorem blankUnless_eq (keep : Bool) (c : UInt8) (rest : Bytes) :
    blankUnless keep (done ++ c :: rest) done.length =
      .ok (done ++ (if keep then c else blank) :: rest) := by
  unfold blankUnless
  cases keep with
  | true => rfl
  | false => exact set_here done rest c blank

/-- Writing blanks over two bytes. -/
theorem blank_two (c d : UInt8) (rest : Bytes) (f : Bytes → Checked Bytes) :
    (do
      let code ← setItem (done ++ c :: d :: rest) done.length blank
      let code ← setItem code (done.length + 1) blank
      f code) = f (done ++ blank :: blank :: rest) := by
  rw [bind_of_ok (set_here ..), bind_of_ok (set_next ..)]

end Round

theorem masked_nil (fuel : Nat) (mode : Mask) : Masked fuel mode [] := by
  intro done
  cases fuel with
  | zero => cases mode <;> rfl
  | succ fuel =>
      unfold maskLoop
      rw [if_neg (by simp)]
      cases mode <;> rfl

/-- The loop masks what is left.  The induction is on the mask of what is left, whose cases are the
rounds of the loop. -/
theorem maskLoop_eq (mode : Mask) (rest : Bytes) (proper : Proper mode) : ∀ fuel : Nat,
    rest.length ≤ fuel → Masked fuel mode rest := by
  have more {fuel : Nat} {c : UInt8} {rest : Bytes} (enough : (c :: rest).length ≤ fuel) :
      ∃ k, fuel = k + 1 ∧ rest.length ≤ k :=
    ⟨fuel - 1, by simp at enough; omega, by simp at enough; omega⟩
  fun_induction maskFrom mode rest with
  | case1 => exact fun fuel _ => masked_nil fuel _
  | case2 rest inductionHypothesis =>
      intro fuel enough done
      obtain ⟨fuel, rfl, fits⟩ := more enough
      rw [maskLoop_cons, maskRound, bind_of_ok (next_here ..), if_pos rfl,
        (inductionHypothesis trivial fuel fits).behind_one, maskFrom, if_pos rfl]
  | case3 c rest other inductionHypothesis =>
      intro fuel enough done
      obtain ⟨fuel, rfl, fits⟩ := more enough
      rw [maskLoop_cons, maskRound, bind_of_ok (next_here ..), if_neg other,
        bind_of_ok (set_here ..), (inductionHypothesis trivial fuel fits).behind_one, maskFrom,
        if_neg other]
  | case4 c =>
      intro fuel enough done
      obtain ⟨fuel, rfl, -⟩ := more enough
      have single : ¬(c = ch '*' ∧ ([] : Bytes).headD 0 = ch '/') := fun both =>
        absurd both.2 (by decide)
      rw [maskLoop_cons, maskRound, bind_of_ok (next_here ..), if_neg single,
        bind_of_ok (blankUnless_eq ..), (masked_nil fuel .blockComment).behind_one]
      simp [maskFrom]
  | case5 c d rest closes inductionHypothesis =>
      intro fuel enough done
      obtain ⟨fuel, rfl, fits⟩ := more enough
      rw [maskLoop_cons, maskRound, bind_of_ok (next_here ..), List.headD_cons, if_pos closes,
        blank_two, (inductionHypothesis trivial fuel (Nat.le_of_succ_le fits)).behind_two,
        maskFrom, if_pos closes]
  | case6 c d rest inside inductionHypothesis =>
      intro fuel enough done
      obtain ⟨fuel, rfl, fits⟩ := more enough
      rw [maskLoop_cons, maskRound, bind_of_ok (next_here ..), List.headD_cons, if_neg inside,
        bind_of_ok (blankUnless_eq ..), (inductionHypothesis trivial fuel fits).behind_one,
        maskFrom, if_neg inside]
      simp only [decide_eq_true_eq]
  | case7 quote c =>
      intro fuel enough done
      obtain ⟨fuel, rfl, -⟩ := more enough
      rw [maskLoop_cons, maskRound]
      -- a backslash at the end: the loop goes on behind the end
      by_cases escapes : c = ch '\\'
      · have beyond : maskLoop fuel (.literal quote) (done ++ [c]) (done.length + 2) =
            .ok (done ++ [c]) := by
          cases fuel with
          | zero => rfl
          | succ fuel => exact if_neg (by simp)
        rw [if_pos escapes, blankUnless, if_pos (by simp)]
        refine beyond.trans ?_
        simp [maskFrom, escapes]
      · rw [if_neg escapes]
        by_cases closes : c = quote
        · have notNewline : c ≠ newline := by
            rcases proper with same | same <;> rw [closes, same] <;> decide
          rw [if_pos closes, bind_of_ok (set_here ..), (masked_nil fuel .code).behind_one]
          simp [maskFrom, escapes, notNewline]
        · rw [if_neg closes, bind_of_ok (blankUnless_eq ..),
            (masked_nil fuel (.literal quote)).behind_one]
          simp [maskFrom, escapes]
  | case8 quote d rest inductionHypothesis =>
      intro fuel enough done
      obtain ⟨fuel, rfl, fits⟩ := more enough
      rw [maskLoop_cons, maskRound, if_pos rfl, blankUnless, if_neg (by simp),
        bind_of_ok (set_next ..),
        (inductionHypothesis proper fuel (Nat.le_of_succ_le fits)).behind_two, maskFrom, if_pos rfl]
  | case9 c d rest plain inductionHypothesis =>
      intro fuel enough done
      obtain ⟨fuel, rfl, fits⟩ := more enough
      rw [maskLoop_cons, maskRound, if_neg plain, if_pos rfl, bind_of_ok (set_here ..),
        (inductionHypothesis trivial fuel fits).behind_one, maskFrom, if_neg plain, if_pos rfl]
  | case10 quote c d rest plain inside inductionHypothesis =>
      intro fuel enough done
      obtain ⟨fuel, rfl, fits⟩ := more enough
      rw [maskLoop_cons, maskRound, if_neg plain, if_neg inside, bind_of_ok (blankUnless_eq ..),
        (inductionHypothesis proper fuel fits).behind_one, maskFrom, if_neg plain,
        if_neg inside]
      simp only [decide_eq_true_eq]
  | case11 c =>
      intro fuel enough done
      obtain ⟨fuel, rfl, -⟩ := more enough
      have single {b : UInt8} (some_ : b ≠ 0) : ¬(c = ch '/' ∧ ([] : Bytes).headD 0 = b) :=
        fun both => some_ both.2.symm
      rw [maskLoop_cons, maskRound, bind_of_ok (next_here ..), if_neg (single (by decide)),
        if_neg (single (by decide))]
      by_cases quote : c = ch '"' ∨ c = ch '\''
      · rw [if_pos quote, bind_of_ok (set_here ..), (masked_nil fuel (.literal c)).behind_one]
        simp only [maskFrom, if_pos quote]
      · rw [if_neg quote, (masked_nil fuel .code).behind_one]
        simp only [maskFrom, if_neg quote]
  | case12 c d rest comment inductionHypothesis =>
      intro fuel enough done
      obtain ⟨fuel, rfl, fits⟩ := more enough
      rw [maskLoop_cons, maskRound, bind_of_ok (next_here ..), List.headD_cons, if_pos comment,
        blank_two, (inductionHypothesis trivial fuel (Nat.le_of_succ_le fits)).behind_two,
        maskFrom, if_pos comment]
  | case13 c d rest slash comment inductionHypothesis =>
      intro fuel enough done
      obtain ⟨fuel, rfl, fits⟩ := more enough
      rw [maskLoop_cons, maskRound, bind_of_ok (next_here ..), List.headD_cons, if_neg slash,
        if_pos comment, blank_two,
        (inductionHypothesis trivial fuel (Nat.le_of_succ_le fits)).behind_two, maskFrom,
        if_neg slash, if_pos comment]
  | case14 c d rest slash comment quote inductionHypothesis =>
      intro fuel enough done
      obtain ⟨fuel, rfl, fits⟩ := more enough
      rw [maskLoop_cons, maskRound, bind_of_ok (next_here ..), List.headD_cons, if_neg slash,
        if_neg comment, if_pos quote, bind_of_ok (set_here ..),
        (inductionHypothesis quote fuel fits).behind_one, maskFrom, if_neg slash,
        if_neg comment, if_pos quote]
  | case15 c d rest slash comment quote inductionHypothesis =>
      intro fuel enough done
      obtain ⟨fuel, rfl, fits⟩ := more enough
      rw [maskLoop_cons, maskRound, bind_of_ok (next_here ..), List.headD_cons, if_neg slash,
        if_neg comment, if_neg quote, (inductionHypothesis trivial fuel fits).behind_one,
        maskFrom, if_neg slash, if_neg comment, if_neg quote]

theorem maskCommentsAndStrings_eq (src : Bytes) :
    maskCommentsAndStrings src = .ok (Graph.maskCommentsAndStrings src) :=
  maskLoop_eq .code src trivial _ (Nat.le_refl _) []

/-! ## Lines -/

/-- The lines from a start on, the last of them passed up to `i`. -/
def linesFrom (s : Bytes) : Nat → Nat → Nat → Checked (List Line)
  | 0, _, _ => .ok []
  | fuel + 1, start, i =>
      if i = s.length then do
        let sv ← part s start (i - start)
        .ok [⟨start, i, sv⟩]
      else do
        let b ← item s i
        if b = newline then do
          let sv ← part s start (i - start)
          let rest ← linesFrom s fuel (i + 1) (i + 1)
          .ok (⟨start, i, sv⟩ :: rest)
        else linesFrom s fuel start (i + 1)

def linesOf (s : Bytes) : Checked (List Line) := linesFrom s (s.length + 1) 0 0

theorem linesFrom_eq (rest : Bytes) : ∀ (fuel : Nat) (front begun : Bytes), newline ∉ begun →
    rest.length < fuel →
      linesFrom (front ++ (begun ++ rest)) fuel front.length (front.length + begun.length) =
        .ok (placeLines front.length ((begun ++ rest).splitOn newline)) := by
  have piece (front begun rest : Bytes) :
      part (front ++ (begun ++ rest)) front.length (front.length + begun.length - front.length) =
        .ok begun := by
    rw [part_of_le (by simp), List.drop_left, Nat.add_sub_cancel_left, List.take_left]
  induction rest with
  | nil =>
      intro fuel front begun plain enough
      obtain ⟨fuel, rfl⟩ : ∃ n, fuel = n + 1 := ⟨fuel - 1, by omega⟩
      rw [linesFrom, if_pos (by simp), bind_of_ok (piece front begun []), List.append_nil,
        List.splitOn_eq_singleton plain]
      rfl
  | cons b rest inductionHypothesis =>
      intro fuel front begun plain enough
      obtain ⟨fuel, rfl⟩ : ∃ n, fuel = n + 1 := ⟨fuel - 1, by omega⟩
      have left : (front ++ (begun ++ b :: rest)).drop (front.length + begun.length) =
          b :: rest := by
        rw [← List.drop_drop, List.drop_left, List.drop_left]
      rw [linesFrom, if_neg (by simp), bind_of_ok (item_of_drop left)]
      by_cases ends : b = newline
      · subst ends
        have later : linesFrom (front ++ (begun ++ newline :: rest)) fuel
            (front.length + begun.length + 1) (front.length + begun.length + 1) =
            .ok (placeLines (front.length + begun.length + 1) (rest.splitOn newline)) := by
          simpa [Nat.add_assoc] using inductionHypothesis fuel (front ++ (begun ++ [newline])) []
            List.not_mem_nil (by simpa using enough)
        rw [if_pos rfl, bind_of_ok (piece ..), bind_of_ok later,
          List.splitOn_append_cons_self_of_not_mem plain]
        rfl
      · have more := inductionHypothesis fuel front (begun ++ [b])
          (by simpa [plain] using fun same : newline = b => ends same.symm)
          (by simpa using enough)
        rw [if_neg ends]
        simpa [Nat.add_assoc] using more

theorem linesOf_eq (s : Bytes) : linesOf s = .ok (Graph.linesOf s) :=
  linesFrom_eq s _ [] [] List.not_mem_nil (Nat.lt_succ_self _)

/-- Count the line feeds before an offset. -/
def countLines (src : Bytes) (off : Nat) : Nat → Nat → UInt32 → Checked UInt32
  | 0, _, line => .ok line
  | fuel + 1, i, line =>
      if i < off ∧ i < src.length then do
        let b ← item src i
        countLines src off fuel (i + 1) (if b = newline then line + 1 else line)
      else .ok line

def lineOf (src : Bytes) (off : Nat) : Checked UInt32 := countLines src off off 0 1

theorem countLines_eq (src : Bytes) (off : Nat) : ∀ (fuel i : Nat) (line : UInt32),
    off - i ≤ fuel → countLines src off fuel i line =
      .ok (line + (((src.drop i).take (off - i)).count newline).toUInt32) := by
  intro fuel
  induction fuel with
  | zero =>
      intro i line enough
      have done : off - i = 0 := by omega
      simp [countLines, done]
  | succ fuel inductionHypothesis =>
      intro i line enough
      unfold countLines
      by_cases inside : i < off ∧ i < src.length
      · have here := List.drop_eq_getElem_cons inside.2
        have more : off - i = off - (i + 1) + 1 := by omega
        rw [if_pos inside, bind_of_ok (item_of_drop here), inductionHypothesis (i + 1) _ (by omega),
          here, more, List.take_succ_cons, List.count_cons]
        by_cases feed : src[i] = newline
        · simp [feed, UInt32.ofNat_add, UInt32.add_assoc, UInt32.add_comm]
        · simp [feed]
      · have done : (src.drop i).take (off - i) = [] := by
          rcases Nat.lt_or_ge i off with below | past
          · rw [List.drop_eq_nil_of_le (by omega), List.take_nil]
          · rw [Nat.sub_eq_zero_of_le past, List.take_zero]
        rw [if_neg inside, done]
        simp

theorem lineOf_eq (src : Bytes) (off : Nat) : lineOf src off = .ok (Graph.lineOf src off) := by
  rw [lineOf, countLines_eq src off off 0 1 (Nat.sub_le ..), Graph.lineOf]
  simp [UInt32.ofNat_add, UInt32.add_comm]

/-! ## Words -/

def ltrim (s : Bytes) : Checked Bytes := do
  let i ← pass isBlank s 0
  suffix s i

/-- Whether a text starts with a byte of a kind. -/
def starts (p : UInt8 → Bool) (s : Bytes) : Checked Bool :=
  if s = [] then .ok false
  else do
    let b ← item s 0
    .ok (p b)

/-- The identifier that a text starts with. -/
def word (s : Bytes) : Checked Bytes := do
  let e ← pass isIdentChar s 0
  part s 0 e

/-- The identifier that a text starts with, if it starts with one. -/
def wordOf (s : Bytes) : Checked Bytes := do
  if ← starts isIdentChar s then word s else .ok []

/-- The text behind a keyword of so many bytes. -/
def behind (s : Bytes) (count : Nat) : Checked Bytes := do
  let rest ← suffix s count
  ltrim rest

theorem ltrim_eq (s : Bytes) : ltrim s = .ok (Graph.ltrim s) := by
  obtain ⟨i, passed, -, inside, -, left⟩ := pass_spec isBlank (Nat.zero_le s.length)
  rw [ltrim, bind_of_ok passed, suffix_of_le inside, left]
  rfl

theorem starts_eq (p : UInt8 → Bool) (s : Bytes) : starts p s = .ok (s.head?.any p) := by
  cases s with
  | nil => rfl
  | cons b rest => rfl

theorem word_eq (s : Bytes) : word s = .ok (identOf s) := by
  obtain ⟨e, passed, -, -, front, -⟩ := pass_spec isIdentChar (Nat.zero_le s.length)
  rw [word, bind_of_ok passed, part_of_le (Nat.zero_le _)]
  exact congrArg Except.ok front

theorem behind_eq {s : Bytes} {count : Nat} (inside : count ≤ s.length) :
    behind s count = .ok (Graph.ltrim (s.drop count)) := by
  rw [behind, bind_of_ok (suffix_of_le inside), ltrim_eq]

/-- A text is as long as what it starts with. -/
theorem length_of_isPrefixOf {keyword t : Bytes} {count : Nat}
    (starts : keyword.isPrefixOf t = true) (length : keyword.length = count) : count ≤ t.length :=
  length ▸ (List.isPrefixOf_iff_prefix.mp starts).length_le

theorem any_head (s : Bytes) (b : UInt8) : s.head?.any (· = b) = true ↔ s.head? = some b := by
  cases s <;> simp

/-- A text starts with an identifier if its first byte is one of an identifier. -/
theorem any_identChar (s : Bytes) : s.head?.any isIdentChar = true ↔ identOf s ≠ [] := by
  cases s with
  | nil => simp [identOf]
  | cons b rest => cases starts : isIdentChar b <;> simp [identOf, starts]

theorem wordOf_eq (s : Bytes) : wordOf s = .ok (identOf s) := by
  rw [wordOf, bind_of_ok (starts_eq isIdentChar s), word_eq]
  by_cases named : identOf s = []
  · rw [if_neg ((any_identChar _).not.mpr (not_not_intro named)), named]
  · rw [if_pos ((any_identChar s).mpr named)]

def nameSym (kind : SymKind) (name code : Bytes) (off : Nat) : Checked Sym := do
  let line ← lineOf code off
  .ok { kind, name, qual := name, line, start := off.toUInt32
        end_ := off.toUInt32 + name.length.toUInt32 }

def defSym (code : Bytes) (d : FuncDef) : Checked Sym := do
  let line ← lineOf code d.nameOff
  .ok { kind := .function, name := d.name, qual := d.name, line
        start := d.start.toUInt32, end_ := d.bodyEnd.toUInt32 }

theorem nameSym_eq (kind : SymKind) (name code : Bytes) (off : Nat) :
    nameSym kind name code off = .ok (Graph.nameSym kind name code off) := by
  rw [nameSym, bind_of_ok (lineOf_eq code off)]
  rfl

theorem defSym_eq (code : Bytes) (d : FuncDef) : defSym code d = .ok (Graph.defSym code d) := by
  rw [defSym, bind_of_ok (lineOf_eq code d.nameOff)]
  rfl

/-- Where the text of a line begins that has no blanks before it. -/
def textBase (l : Line) (t : Bytes) : Nat := l.off + (l.sv.length - t.length)

/-- The identifier at the front of what is left of a line, as a symbol. -/
def wordSym (kind : SymKind) (code : Bytes) (l : Line) (t rest : Bytes) : Checked (Option Sym) := do
  if ← starts isIdentChar rest then
    let name ← word rest
    let s ← nameSym kind name code (textBase l t + t.length - rest.length)
    .ok (some s)
  else .ok none

/-- What is left of a line begins where its length says. -/
theorem textBase_eq {l : Line} {code t rest : Bytes} (inside : l.In code) (text : t <:+ l.sv)
    (left : rest <:+ t) : textBase l t + t.length - rest.length = l.fin - rest.length := by
  have shorter := text.length_le
  have rests := left.length_le
  have fin := inside.fin
  unfold textBase
  omega

theorem textBase_add {l : Line} {code t : Bytes} (inside : l.In code) (text : t <:+ l.sv) {p : Nat}
    (fits : p ≤ t.length) : textBase l t + p = l.fin - (t.drop p).length := by
  rw [← textBase_eq inside text (List.drop_suffix p t), List.length_drop]
  omega

theorem wordSym_eq {l : Line} {code t rest : Bytes} (inside : l.In code) (text : t <:+ l.sv)
    (left : rest <:+ t) (kind : SymKind) :
    wordSym kind code l t rest = .ok (Graph.wordSym kind code l rest) := by
  rw [wordSym, bind_of_ok (starts_eq isIdentChar rest), Graph.wordSym]
  by_cases named : identOf rest = []
  · rw [if_neg ((any_identChar _).not.mpr (not_not_intro named)), if_pos named]
  · rw [if_pos ((any_identChar rest).mpr named), if_neg named, bind_of_ok (word_eq rest),
      bind_of_ok (nameSym_eq ..), textBase_eq inside text left]

/-! ## Calls -/

def identStart (code : Bytes) (low q : Nat) : Checked Nat := passBack isIdentChar code low q

theorem item_byteAt {code : Bytes} {i : Nat} (inside : i < code.length) :
    item code i = .ok (byteAt code i) :=
  item_of_lt inside 0

theorem identStart_eq {code : Bytes} (low : Nat) : ∀ {q : Nat}, q ≤ code.length →
    identStart code low q = .ok (Graph.identStart code low q) := by
  intro q
  induction q with
  | zero => exact fun _ => rfl
  | succ q inductionHypothesis =>
      intro inside
      unfold identStart passBack Graph.identStart
      by_cases more : low < q + 1
      · rw [if_pos more, bind_of_ok (item_byteAt inside)]
        by_cases ident : isIdentChar (byteAt code q) = true
        · rw [if_pos ident, if_pos ⟨more, ident⟩]
          exact inductionHypothesis (Nat.le_of_succ_le inside)
        · rw [if_neg ident, if_neg fun both => ident both.2]
      · rw [if_neg more, if_neg fun both => more both.1]

/-- The position of the byte that closes what the first opening byte opened, among so many. -/
def closeFrom (opening closing : UInt8) (s : Bytes) : Nat → Nat → Int → Checked (Option Nat)
  | 0, _, _ => .ok none
  | n + 1, i, depth => do
      let b ← item s i
      if b = opening then closeFrom opening closing s n (i + 1) (depth + 1)
      else if b = closing then
        if depth - 1 = 0 then .ok (some i) else closeFrom opening closing s n (i + 1) (depth - 1)
      else closeFrom opening closing s n (i + 1) depth

theorem closeFrom_eq (opening closing : UInt8) {s : Bytes} : ∀ (n i : Nat) (depth : Int),
    i + n ≤ s.length → closeFrom opening closing s n i depth =
      .ok ((balance opening closing depth ((s.drop i).take n)).map (i + ·)) := by
  intro n
  induction n with
  | zero => exact fun i depth _ => by rw [List.take_zero]; rfl
  | succ n inductionHypothesis =>
      intro i depth inside
      have here := List.drop_eq_getElem_cons (show i < s.length by omega)
      have onward (found : Option Nat) :
          found.map (i + 1 + ·) = (found.map (· + 1)).map (i + ·) := by
        rw [Option.map_map]
        exact congrArg (Option.map · found) (funext fun k => by simp; omega)
      unfold closeFrom
      rw [bind_of_ok (item_of_drop here), here, List.take_succ_cons, balance]
      by_cases opens : s[i] = opening
      · rw [if_pos opens, if_pos opens, inductionHypothesis _ _ (by omega), onward]
      rw [if_neg opens, if_neg opens]
      by_cases closes : s[i] = closing
      · rw [if_pos closes, if_pos closes]
        by_cases last : depth - 1 = 0
        · rw [if_pos last, if_pos last]
          rfl
        · rw [if_neg last, if_neg last, inductionHypothesis _ _ (by omega), onward]
      · rw [if_neg closes, if_neg closes, inductionHypothesis _ _ (by omega), onward]

theorem closeFrom_rest (opening closing : UInt8) {s : Bytes} {i : Nat} (inside : i ≤ s.length) :
    closeFrom opening closing s (s.length - i) i 0 =
      .ok ((balance opening closing 0 (s.drop i)).map (i + ·)) := by
  rw [closeFrom_eq _ _ _ i 0 (by omega), List.take_of_length_le (by rw [List.length_drop])]

def matchBrace (code : Bytes) (start : Nat) : Checked (Option Nat) := do
  let close ← closeFrom (ch '{') (ch '}') code (code.length - start) start 0
  .ok (close.map (· + 1))

theorem matchBrace_eq {code : Bytes} {start : Nat} (inside : start ≤ code.length) :
    matchBrace code start = .ok (Graph.matchBrace code start) := by
  rw [matchBrace, bind_of_ok (closeFrom_rest _ _ inside), Option.map_map]
  rfl

def callAt (keywords : List Bytes) (code : Bytes) (defs : List FuncDef) (l : Line) (i : Nat) :
    Checked (Option CallSite) := do
  let b ← item code i
  if b ≠ ch '(' then .ok none
  else
    let q ← identStart code l.off i
    if q = i then .ok none
    else
      let tok ← between code q i
      if tok ∈ keywords ∨ ∃ d ∈ defs, d.nameOff = q then .ok none else .ok (some ⟨q, tok⟩)

def callSites (keywords : List Bytes) (code : Bytes) (defs : List FuncDef) :
    Checked (List CallSite) := do
  let lines ← linesOf code
  let sites ← lines.mapM fun l =>
    (List.range' l.off (l.fin - l.off)).mapM (callAt keywords code defs l)
  .ok (sites.flatten.filterMap id)

/-- A parenthesis and the identifier before it are within a text. -/
theorem between_identStart {code : Bytes} (low : Nat) {i : Nat} (inside : i ≤ code.length) :
    between code (Graph.identStart code low i) i =
      .ok (slice code (Graph.identStart code low i) i) :=
  between_of_le (identStart_le code low i) inside

theorem callAt_eq (keywords : List Bytes) {code : Bytes} (defs : List FuncDef) (l : Line) {i : Nat}
    (inside : i < code.length) :
    callAt keywords code defs l i = .ok (Graph.callAt keywords code defs l i) := by
  rw [callAt, bind_of_ok (item_byteAt inside), Graph.callAt]
  by_cases paren : byteAt code i = ch '('
  · rw [if_neg (not_not_intro paren), bind_of_ok (identStart_eq l.off inside.le)]
    by_cases bare : Graph.identStart code l.off i = i
    · rw [if_pos bare, if_neg fun call => call.2.1 bare]
    · rw [if_neg bare, bind_of_ok (between_identStart l.off inside.le)]
      split
      · rename_i left
        rw [if_neg]
        rintro ⟨-, -, plain, other⟩
        rcases left with keyword | ⟨d, member, same⟩
        · exact plain keyword
        · exact other d member same
      · rename_i call
        rw [not_or] at call
        rw [if_pos ⟨paren, bare, call.1, fun d member same => call.2 ⟨d, member, same⟩⟩]
  · rw [if_pos paren, if_neg fun call => paren call.1]

/-- The places of a line are in the text. -/
theorem lt_of_mem_range {l : Line} {code : Bytes} (inside : l.In code) {i : Nat}
    (member : i ∈ List.range' l.off (l.fin - l.off)) : l.off ≤ i ∧ i < l.fin ∧ i < code.length := by
  have range := List.mem_range'_1.mp member
  have fits := inside.inside
  omega

theorem callSites_eq (keywords : List Bytes) (code : Bytes) (defs : List FuncDef) :
    callSites keywords code defs = .ok (Graph.callSites keywords code defs) := by
  have each : ∀ l ∈ Graph.linesOf code,
      (List.range' l.off (l.fin - l.off)).mapM (callAt keywords code defs l) =
        .ok ((List.range' l.off (l.fin - l.off)).map (Graph.callAt keywords code defs l)) :=
    fun l member => mapM_eq fun i place =>
      callAt_eq keywords defs l (lt_of_mem_range (in_of_mem_linesOf member) place).2.2
  rw [callSites, bind_of_ok (linesOf_eq code), bind_of_ok (mapM_eq each), Graph.callSites,
    List.filterMap_flatten, List.map_map, List.flatMap_def]
  simp only [Function.comp_def, List.filterMap_map, id_eq]

end Opencodepp.Graph.Scan
