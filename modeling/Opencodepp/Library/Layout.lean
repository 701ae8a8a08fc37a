import Opencodepp.Library.Cursor

/-!
# Layouts of a byte format

A layout says which bytes stand for which value, while a memory is carried along; it mentions no
reader.  Layouts are put together like readers, one after the other.

* `Reader.Reads` says that a reader finds a value exactly where the layout has one, at every
  place of every text, and that it consumes exactly the bytes of the value; it is closed under
  doing one thing after the other (`Reader.Reads.bind`).
* `Layout.Written` says that a writer writes bytes of a layout.
* `Layout.Within` compares two layouts, of which one is the more lenient.
-/

set_option autoImplicit false

namespace Opencodepp.Library

/-- Which bytes stand for which value, with the memory before and after. -/
def Layout (ν α : Type) : Type := ν → Bytes → α → ν → Prop

namespace Layout

variable {μ ν α β : Type}

/-- A value that takes no bytes. -/
def nothing (a : α) : Layout ν α := fun n w a' n' => w = [] ∧ a' = a ∧ n' = n

/-- One layout after the other. -/
def andThen (L : Layout ν α) (f : α → Layout ν β) : Layout ν β := fun n w b n'' =>
  ∃ a n' first second, L n first a n' ∧ f a n' second b n'' ∧ w = first ++ second

instance : Monad (Layout ν) where
  pure := nothing
  bind := andThen

/-- What never stands. -/
def never : Layout ν α := fun _ _ _ _ => False

/-- Any one byte. -/
def byte : Layout ν UInt8 := fun n w b n' => w = [b] ∧ n' = n

/-- So many bytes. -/
def run (size : Nat) : Layout ν Bytes := fun n w s n' => w = s ∧ s.length = size ∧ n' = n

/-! ## More lenient layouts -/

/-- What stands by the first stands by the second. -/
def Within (L M : Layout ν α) : Prop := ∀ n w a n', L n w a n' → M n w a n'

namespace Within

theorem refl (L : Layout ν α) : Within L L := fun _ _ _ _ stands => stands

theorem bind {L M : Layout ν α} {f g : α → Layout ν β} (first : Within L M)
    (second : ∀ a, Within (f a) (g a)) : Within (L >>= f) (M >>= g) := by
  rintro n w b n'' ⟨a, n', front, back, here, there, split⟩
  exact ⟨a, n', front, back, first n front a n' here, second a n' back b n'' there, split⟩

theorem ite {p : Prop} [Decidable p] {L L' M M' : Layout ν α} (left : Within L M)
    (right : Within L' M') : Within (if p then L else L') (if p then M else M') := by
  by_cases holds : p
  · rw [if_pos holds, if_pos holds]
    exact left
  · rw [if_neg holds, if_neg holds]
    exact right

end Within

/-! ## Writers -/

/-- Whatever the memories, when they are related the writer's bytes stand for `a`, and the
memories are related afterwards. -/
def Written (R R' : μ → ν → Prop) (w : Writer μ) (L : Layout ν α) (a : α) : Prop :=
  ∀ m n, R m n → ∃ n', R' (w m).2 n' ∧ L n (w m).1 a n'

namespace Written

variable {R R' R'' : μ → ν → Prop} {w w' : Writer μ} {L : Layout ν α} {a : α}

theorem pure (a : α) : Written R R .nothing (Pure.pure a : Layout ν α) a :=
  fun _ n related => ⟨n, related, rfl, rfl, rfl⟩

theorem bind {f : α → Layout ν β} {b : β} (first : Written R R' w L a)
    (second : Written R' R'' w' (f a) b) : Written R R'' (w.andThen w') (L >>= f) b := by
  intro m n related
  obtain ⟨n', related', here⟩ := first m n related
  obtain ⟨n'', related'', there⟩ := second (w m).2 n' related'
  exact ⟨n'', related'', a, n', (w m).1, (w' (w m).2).1, here, there, rfl⟩

/-- A last step that writes nothing more. -/
theorem bind_nothing {f : α → Layout ν β} {b : β} (first : Written R R' w L a)
    (second : Written R' R'' .nothing (f a) b) : Written R R'' w (L >>= f) b := by
  have both := first.bind second
  rw [Writer.andThen_nothing] at both
  exact both

theorem mono {S : μ → ν → Prop} (written : Written R R' w L a) (weaker : ∀ m n, R' m n → S m n) :
    Written R S w L a := by
  intro m n related
  obtain ⟨n', related', stands⟩ := written m n related
  exact ⟨n', weaker _ _ related', stands⟩

theorem byte (b : UInt8) : Written R R (.bytes [b]) (Layout.byte : Layout ν UInt8) b :=
  fun _ n related => ⟨n, related, rfl, rfl⟩

end Written

end Layout

/-! ## Readers -/

namespace Reader

variable {ν ε α β : Type}

/-- The reader succeeds exactly where the layout has a value, and consumes its bytes. -/
structure Reads (x : Reader ν ε α) (L : Layout ν α) : Prop where
  sound : ∀ before input touched n a c', x (before ++ input) ⟨before.length, touched, n⟩ =
    (.ok a, c') → ∃ w after, input = w ++ after ∧ L n w a c'.memo ∧
      c'.pos = before.length + w.length
  complete : ∀ before w after touched n a n', L n w a n' → ∃ touched',
    x (before ++ (w ++ after)) ⟨before.length, touched, n⟩ =
      (.ok a, ⟨before.length + w.length, touched', n'⟩)

namespace Reads

variable {x : Reader ν ε α} {L : Layout ν α}

theorem pure (a : α) : Reads (Pure.pure a : Reader ν ε α) (Pure.pure a) where
  sound := by
    intro before input touched n a' c' run
    cases run
    exact ⟨[], input, rfl, ⟨rfl, rfl, rfl⟩, rfl⟩
  complete := by
    rintro before w after touched n a' n' ⟨rfl, rfl, rfl⟩
    exact ⟨touched, rfl⟩

theorem failAt (e : Nat → ε) : Reads (Reader.failAt e : Reader ν ε α) .never where
  sound := by
    intro before input touched n a c' run
    cases run
  complete := fun _ _ _ _ _ _ _ impossible => impossible.elim

theorem bind {f : α → Reader ν ε β} {g : α → Layout ν β} (first : Reads x L)
    (second : ∀ a, Reads (f a) (g a)) : Reads (x >>= f) (L >>= g) where
  sound := by
    intro before input touched n b c'' run
    obtain ⟨a, c', here, there⟩ := ok_of_bind run
    obtain ⟨front, rest, rfl, stands, pos⟩ := first.sound before input touched n a c' here
    have place : c' = ⟨(before ++ front).length, c'.touched, c'.memo⟩ := by
      rw [List.length_append, ← pos]
    rw [place, ← List.append_assoc] at there
    obtain ⟨back, after, rfl, stands', pos'⟩ := (second a).sound _ _ _ _ b c'' there
    refine ⟨front ++ back, after, (List.append_assoc ..).symm,
      ⟨a, c'.memo, front, back, stands, stands', rfl⟩, ?_⟩
    rw [pos', List.length_append, List.length_append, Nat.add_assoc]
  complete := by
    rintro before w after touched n b n'' ⟨a, n', front, back, here, there, rfl⟩
    obtain ⟨touched', run⟩ := first.complete before front (back ++ after) touched n a n' here
    obtain ⟨touched'', run'⟩ :=
      (second a).complete (before ++ front) back after touched' n' b n'' there
    refine ⟨touched'', ?_⟩
    have text : before ++ (front ++ back ++ after) = before ++ (front ++ (back ++ after)) := by
      rw [List.append_assoc front]
    rw [text, bind_ok run, ← List.append_assoc, ← List.length_append, run']
    simp [Nat.add_assoc]

theorem ite {p : Prop} [Decidable p] {y : Reader ν ε α} {M : Layout ν α} (left : Reads x L)
    (right : Reads y M) : Reads (if p then x else y) (if p then L else M) := by
  by_cases holds : p
  · rw [if_pos holds, if_pos holds]
    exact left
  · rw [if_neg holds, if_neg holds]
    exact right

/-- The layout may be stated in another way. -/
theorem congr {M : Layout ν α} (reads : Reads x M)
    (same : ∀ n w a n', L n w a n' ↔ M n w a n') : Reads x L where
  sound := by
    intro before input touched n a c' run
    obtain ⟨w, after, split, stands, pos⟩ := reads.sound before input touched n a c' run
    exact ⟨w, after, split, (same _ _ _ _).mpr stands, pos⟩
  complete := fun before w after touched n a n' stands =>
    reads.complete before w after touched n a n' ((same _ _ _ _).mp stands)

/-- What the reader finds at the start of a text. -/
theorem start (reads : Reads x L) {text : Bytes} {n : ν} {a : α} :
    (∃ c', x text ⟨0, 0, n⟩ = (.ok a, c')) ↔ ∃ w rest n', text = w ++ rest ∧ L n w a n' := by
  constructor
  · rintro ⟨c', run⟩
    obtain ⟨w, rest, split, stands, -⟩ := reads.sound [] text 0 n a c' run
    exact ⟨w, rest, c'.memo, split, stands⟩
  · rintro ⟨w, rest, n', rfl, stands⟩
    obtain ⟨touched', run⟩ := reads.complete [] w rest 0 n a n' stands
    exact ⟨_, run⟩

/-- A text has at most one reading that begins where it begins. -/
theorem unique (reads : Reads x L) {n : ν} {w w' rest rest' : Bytes} {a a' : α} {n' n'' : ν}
    (same : w ++ rest = w' ++ rest') (stands : L n w a n') (stands' : L n w' a' n'') :
    w = w' ∧ rest = rest' ∧ a = a' ∧ n' = n'' := by
  obtain ⟨touched, run⟩ := reads.complete [] w rest 0 n a n' stands
  obtain ⟨touched', run'⟩ := reads.complete [] w' rest' 0 n a' n'' stands'
  rw [same, run'] at run
  obtain ⟨value, place⟩ := Prod.mk.inj run
  have length : w.length = w'.length := by
    have pos := congrArg Cursor.pos place
    simpa using pos.symm
  obtain ⟨front, back⟩ := List.append_inj same length
  exact ⟨front, back, (Except.ok.inj value).symm, (congrArg Cursor.memo place).symm⟩

end Reads

end Reader

end Opencodepp.Library
