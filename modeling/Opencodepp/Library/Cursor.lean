import Opencodepp.Library.ByteString
import Opencodepp.Library.Program

/-!
# Writers and readers of a byte format

A writer appends bytes and keeps a memory of what it has written; a reader moves a cursor
over a fixed text and keeps a memory of what it has read.  The cursor also notes the
furthest byte that was looked at, which no reader consults.

* `Recovers` says that a reader undoes a writer wherever the bytes stand, and that the two
  memories stay related; it is closed under doing one thing after the other
  (`Recovers.bind`), so that a round trip is put together from the round trips of the parts.
* `Steady` says that a reader that succeeds does so however the text goes on, which is what
  makes the strict prefixes of a complete text fail (`Steady.fails_of_prefix`).
* `Bounded` says that neither the cursor nor the bytes looked at ever leave the text, and what
  the errors are.
-/

set_option autoImplicit false

namespace Opencodepp.Library

/-- A place in a text, one past the furthest byte looked at, and what the reader remembers. -/
structure Cursor (ν : Type) where
  pos : Nat
  touched : Nat
  memo : ν

/-- The cursor and what it has looked at are within a text of this size. -/
structure Cursor.InBounds {ν : Type} (size : Nat) (c : Cursor ν) : Prop where
  pos : c.pos ≤ size
  touched : c.touched ≤ size

/-- Bytes to append, and the memory afterwards. -/
def Writer (μ : Type) : Type := μ → Bytes × μ

namespace Writer

variable {μ : Type}

/-- Write nothing. -/
def nothing : Writer μ := fun m => ([], m)

/-- Write these bytes. -/
def bytes (written : Bytes) : Writer μ := fun m => (written, m)

/-- One writer after the other. -/
def andThen (first second : Writer μ) : Writer μ := fun m =>
  ((first m).1 ++ (second (first m).2).1, (second (first m).2).2)

theorem andThen_nothing (w : Writer μ) : w.andThen nothing = w := by
  funext m
  simp [andThen, nothing]

/-- Several writers in order. -/
def all : List (Writer μ) → Writer μ
  | [] => nothing
  | w :: rest => w.andThen (all rest)

end Writer

/-- A reader over a text. -/
def Reader (ν ε α : Type) : Type := Bytes → Program (Cursor ν) ε α

namespace Reader

variable {μ ν ε α β : Type}

/-- One reader after the other, over the same text. -/
def andThen (x : Reader ν ε α) (f : α → Reader ν ε β) : Reader ν ε β := fun input =>
  x input >>= fun a => f a input

instance : Monad (Reader ν ε) where
  pure a := fun _ => pure a
  bind := andThen

/-- Leave the reader with an error that may depend on where it stands. -/
def failAt (e : Nat → ε) : Reader ν ε α := fun _ c => (.error (e c.pos), c)

theorem bind_ok {x : Reader ν ε α} {f : α → Reader ν ε β} {input : Bytes} {c c' : Cursor ν} {a : α}
    (run : x input c = (.ok a, c')) : (x >>= f) input c = f a input c' := by
  show Program.andThen (x input) (fun a => f a input) c = _
  unfold Program.andThen
  rw [run]

theorem ok_of_bind {x : Reader ν ε α} {f : α → Reader ν ε β} {input : Bytes} {c c'' : Cursor ν}
    {b : β} (run : (x >>= f) input c = (.ok b, c'')) :
    ∃ a c', x input c = (.ok a, c') ∧ f a input c' = (.ok b, c'') := by
  have unfolded : Program.andThen (x input) (fun a => f a input) c = (.ok b, c'') := run
  unfold Program.andThen at unfolded
  rcases first : x input c with ⟨e | a, c'⟩
  · rw [first] at unfolded
    cases unfolded
  · rw [first] at unfolded
    exact ⟨a, c', rfl, unfolded⟩

/-! ## Readers that do not look ahead -/

/-- A success does not depend on how the text goes on. -/
def Steady (x : Reader ν ε α) : Prop :=
  ∀ input more c a c', x input c = (.ok a, c') → x (input ++ more) c = (.ok a, c')

namespace Steady

theorem pure (a : α) : Steady (Pure.pure a : Reader ν ε α) := fun _ _ _ _ _ run => run

theorem failAt (e : Nat → ε) : Steady (Reader.failAt e : Reader ν ε α) := by
  intro input more c a c' run
  cases run

theorem bind {x : Reader ν ε α} {f : α → Reader ν ε β} (first : Steady x)
    (second : ∀ a, Steady (f a)) : Steady (x >>= f) := by
  intro input more c b c'' run
  obtain ⟨a, c', here, rest⟩ := ok_of_bind run
  rw [bind_ok (first input more c a c' here)]
  exact second a input more c' b c'' rest

theorem ite {p : Prop} [Decidable p] {x y : Reader ν ε α} (left : Steady x) (right : Steady y) :
    Steady (if p then x else y) := by
  by_cases holds : p
  · rw [if_pos holds]
    exact left
  · rw [if_neg holds]
    exact right

end Steady

/-! ## Staying within the text -/

/-- A reader that stays within its text, and whose errors are of a given kind. -/
def Bounded (E : Nat → ε → Prop) (x : Reader ν ε α) : Prop :=
  ∀ input, Program.Maintains (Cursor.InBounds input.length) (fun e c => E input.length e ∧
    Cursor.InBounds input.length c) (x input)

namespace Bounded

variable {E : Nat → ε → Prop}

theorem pure (a : α) : Bounded E (Pure.pure a : Reader ν ε α) :=
  fun _ => Program.Maintains.pure a

theorem failAt {e : Nat → ε} (kind : ∀ size pos, pos ≤ size → E size (e pos)) :
    Bounded E (Reader.failAt e : Reader ν ε α) :=
  fun input c within => ⟨kind input.length c.pos within.pos, within⟩

theorem bind {x : Reader ν ε α} {f : α → Reader ν ε β} (first : Bounded E x)
    (second : ∀ a, Bounded E (f a)) : Bounded E (x >>= f) :=
  fun input => Program.Maintains.bind (first input) fun a => second a input

theorem ite {p : Prop} [Decidable p] {x y : Reader ν ε α} (left : Bounded E x)
    (right : Bounded E y) : Bounded E (if p then x else y) := by
  by_cases holds : p
  · rw [if_pos holds]
    exact left
  · rw [if_neg holds]
    exact right

end Bounded

/-! ## Undoing a writer -/

/-- Wherever the writer's bytes stand, the reader consumes exactly them and returns `a`; the
memories are related before by `R` and after by `R'`. -/
def Recovers (R R' : μ → ν → Prop) (w : Writer μ) (x : Reader ν ε α) (a : α) : Prop :=
  ∀ m n, R m n → ∀ before after touched, ∃ n' touched', R' (w m).2 n' ∧
    x (before ++ ((w m).1 ++ after)) ⟨before.length, touched, n⟩ =
      (.ok a, ⟨before.length + (w m).1.length, touched', n'⟩)

namespace Recovers

variable {R R' R'' : μ → ν → Prop} {w w' : Writer μ} {x : Reader ν ε α} {a : α}

theorem pure (a : α) : Recovers R R .nothing (Pure.pure a : Reader ν ε α) a :=
  fun _ n related _ _ touched => ⟨n, touched, related, rfl⟩

theorem bind {f : α → Reader ν ε β} {b : β} (first : Recovers R R' w x a)
    (second : Recovers R' R'' w' (f a) b) : Recovers R R'' (w.andThen w') (x >>= f) b := by
  intro m n related before after touched
  obtain ⟨n', touched', related', run⟩ :=
    first m n related before ((w' (w m).2).1 ++ after) touched
  obtain ⟨n'', touched'', related'', run'⟩ :=
    second (w m).2 n' related' (before ++ (w m).1) after touched'
  refine ⟨n'', touched'', related'', ?_⟩
  have text : before ++ ((w.andThen w' m).1 ++ after) =
      before ++ ((w m).1 ++ ((w' (w m).2).1 ++ after)) := by
    show before ++ (((w m).1 ++ (w' (w m).2).1) ++ after) = _
    rw [List.append_assoc]
  rw [text, bind_ok run, ← List.append_assoc, ← List.length_append, run']
  simp [Writer.andThen, Nat.add_assoc]

/-- A last step that reads nothing more. -/
theorem bind_nothing {f : α → Reader ν ε β} {b : β} (first : Recovers R R' w x a)
    (second : Recovers R' R'' .nothing (f a) b) : Recovers R R'' w (x >>= f) b := by
  have both := first.bind second
  rw [Writer.andThen_nothing] at both
  exact both

/-- Reading the first byte, and then the others. -/
theorem cons {y : Reader ν ε UInt8} {f : UInt8 → Reader ν ε β} {byte : UInt8} {rest : Bytes}
    {b : β} (first : Recovers R R' (.bytes [byte]) y byte)
    (second : Recovers R' R'' (.bytes rest) (f byte) b) :
    Recovers R R'' (.bytes (byte :: rest)) (y >>= f) b :=
  first.bind second

/-- The memories may be fixed first: the writer is then a piece of text. -/
theorem of_fixed (fixed : ∀ m n, R m n → Recovers (fun m' n' => m' = m ∧ n' = n)
      (fun _ n' => R' (w m).2 n') (.bytes (w m).1) x a) : Recovers R R' w x a :=
  fun m n related before after touched => fixed m n related m n ⟨rfl, rfl⟩ before after touched

/-- Relations between the memories may be weakened afterwards. -/
theorem mono {S : μ → ν → Prop} (recovers : Recovers R R' w x a) (weaker : ∀ m n, R' m n → S m n) :
    Recovers R S w x a := by
  intro m n related before after touched
  obtain ⟨n', touched', related', run⟩ := recovers m n related before after touched
  exact ⟨n', touched', weaker _ _ related', run⟩

/-- What the reader does on the writer's bytes alone. -/
theorem whole (recovers : Recovers R R' w x a) {m : μ} {n : ν} (related : R m n) (touched : Nat) :
    ∃ n' touched', x (w m).1 ⟨0, touched, n⟩ = (.ok a, ⟨(w m).1.length, touched', n'⟩) := by
  obtain ⟨n', touched', _, run⟩ := recovers m n related [] [] touched
  refine ⟨n', touched', ?_⟩
  simpa using run

end Recovers

/-- A reader that consumes a whole text fails on its strict prefixes: it would stop there with
the bytes that follow unread. -/
theorem Steady.fails_of_prefix {E : Nat → ε → Prop} {x : Reader ν ε α} (steady : Steady x)
    (bounded : Bounded E x) {text cut : Bytes} {c : Cursor ν}
    (start : c.InBounds cut.length)
    (consumed : ∀ a c', x text c = (.ok a, c') → c'.pos = text.length)
    (part : cut <+: text) (strict : cut ≠ text) :
    ∃ e c', x cut c = (.error e, c') ∧ E cut.length e := by
  have ends := bounded cut c start
  rcases run : x cut c with ⟨e | a, c'⟩
  · exact ⟨e, c', rfl, (Program.wp_of_exits ends run).1⟩
  · obtain ⟨more, rfl⟩ := part
    have longer := consumed a c' (steady cut more c a c' run)
    have within := (Program.wp_of_returns ends run).pos
    rw [List.length_append] at longer
    have empty : more = [] := List.eq_nil_of_length_eq_zero (by omega)
    rw [empty, List.append_nil] at strict
    exact absurd rfl strict

end Reader

end Opencodepp.Library
