import Mathlib.Data.List.TakeWhile

/-!
# Checked accesses

A scanner reads a text by positions.  Here every access says whether it stays within the text, and
a program stops at the first one that does not.  The loops that scanners are made of ask for the
end before they read, so they never stray; each of them has one lemma, which says what it comes to
in terms of what is left of the text where it begins.
-/

set_option autoImplicit false

namespace Opencodepp.Library

/-- An access outside of a text: an item that is not there, or a part that starts behind the end. -/
inductive Stray
  | item
  | start
  deriving Repr, DecidableEq

/-- What a program gives whose accesses are checked. -/
abbrev Checked (α : Type) := Except Stray α

namespace Checked

variable {α β γ : Type}

theorem ok_bind (b : β) (f : β → Checked γ) : ((.ok b : Checked β) >>= f) = f b := rfl

theorem bind_of_ok {x : Checked β} {b : β} (ok : x = .ok b) (f : β → Checked γ) :
    (x >>= f) = f b := by
  rw [ok]
  rfl

/-! ## Accesses -/

def item (s : List α) (i : Nat) : Checked α :=
  match s[i]? with
  | some a => .ok a
  | none => .error .item

/-- What is left of a text from a position on; it may be the end. -/
def suffix (s : List α) (pos : Nat) : Checked (List α) :=
  if pos ≤ s.length then .ok (s.drop pos) else .error .start

/-- What is left of a text from a position that was looked for; none stands for a position that lies
behind the end of every text. -/
def suffixFrom (s : List α) : Option Nat → Checked (List α)
  | none => .error .start
  | some pos => suffix s pos

/-- A part of a text of so many items, or of as many as there are. -/
def part (s : List α) (pos count : Nat) : Checked (List α) :=
  if pos ≤ s.length then .ok ((s.drop pos).take count) else .error .start

/-- The items from one position up to another. -/
def between (s : List α) (first last : Nat) : Checked (List α) :=
  if first ≤ last ∧ last ≤ s.length then .ok ((s.drop first).take (last - first))
  else .error .item

/-- Write over an item. -/
def setItem (s : List α) (i : Nat) (a : α) : Checked (List α) :=
  if i < s.length then .ok (s.set i a) else .error .item

section Accesses

variable {s : List α}

theorem item_of_drop {i : Nat} {a : α} {rest : List α} (here : s.drop i = a :: rest) :
    item s i = .ok a := by
  have found : s[i]? = some a := by
    have first := congrArg (·[0]?) here
    simpa using first
  unfold item
  rw [found]

theorem item_zero (a : α) (rest : List α) : item (a :: rest) 0 = .ok a := rfl

theorem item_of_lt {i : Nat} (inside : i < s.length) (d : α) : item s i = .ok (s.getD i d) := by
  rw [List.getD_eq_getElem?_getD, List.getElem?_eq_getElem inside]
  exact item_of_drop (List.drop_eq_getElem_cons inside)

theorem suffix_of_le {pos : Nat} (inside : pos ≤ s.length) : suffix s pos = .ok (s.drop pos) :=
  if_pos inside

theorem part_of_le {pos : Nat} (inside : pos ≤ s.length) (count : Nat) :
    part s pos count = .ok ((s.drop pos).take count) :=
  if_pos inside

theorem setItem_of_lt {i : Nat} (inside : i < s.length) (a : α) :
    setItem s i a = .ok (s.set i a) :=
  if_pos inside

theorem between_of_le {first last : Nat} (order : first ≤ last) (inside : last ≤ s.length) :
    between s first last = .ok ((s.drop first).take (last - first)) :=
  if_pos ⟨order, inside⟩

end Accesses

/-! ## Loops over a text -/

/-- Pass over items from a position on, so many at most. -/
def passAtMost (p : α → Bool) (s : List α) : Nat → Nat → Checked Nat
  | 0, i => .ok i
  | fuel + 1, i =>
      if i < s.length then do
        let a ← item s i
        if p a then passAtMost p s fuel (i + 1) else .ok i
      else .ok i

/-- The position behind the items from a position on that are all of a kind. -/
def pass (p : α → Bool) (s : List α) (i : Nat) : Checked Nat := passAtMost p s (s.length - i) i

/-- The position before the items up to a position that are all of a kind, but not before
`low`. -/
def passBack (p : α → Bool) (s : List α) (low : Nat) : Nat → Checked Nat
  | 0 => .ok 0
  | q + 1 =>
      if low < q + 1 then do
        let a ← item s q
        if p a then passBack p s low q else .ok (q + 1)
      else .ok (q + 1)

/-- The position of the first item of a kind among so many from a position on. -/
def find (p : α → Bool) (s : List α) : Nat → Nat → Checked (Option Nat)
  | 0, _ => .ok none
  | n + 1, i => do
      let a ← item s i
      if p a then .ok (some i) else find p s n (i + 1)

section Loops

variable (p : α → Bool) {s : List α}

theorem passAtMost_eq : ∀ (fuel i : Nat), s.length - i ≤ fuel →
    passAtMost p s fuel i = .ok (i + ((s.drop i).takeWhile p).length) := by
  intro fuel
  induction fuel with
  | zero =>
      intro i enough
      rw [List.drop_eq_nil_of_le (by omega)]
      rfl
  | succ fuel inductionHypothesis =>
      intro i enough
      unfold passAtMost
      by_cases inside : i < s.length
      · have here := List.drop_eq_getElem_cons inside
        rw [if_pos inside, bind_of_ok (item_of_drop here), here]
        cases passes : p s[i] with
        | true =>
            rw [if_pos rfl, inductionHypothesis (i + 1) (by omega),
              List.takeWhile_cons_of_pos passes, List.length_cons, Nat.add_assoc, Nat.add_comm 1]
        | false =>
            rw [if_neg Bool.false_ne_true, List.takeWhile_cons_of_neg (by simp [passes])]
            rfl
      · rw [if_neg inside, List.drop_eq_nil_of_le (Nat.le_of_not_lt inside)]
        rfl

theorem pass_eq (s : List α) (i : Nat) :
    pass p s i = .ok (i + ((s.drop i).takeWhile p).length) :=
  passAtMost_eq p _ i (Nat.le_refl _)

theorem drop_length_takeWhile (s : List α) :
    s.drop (s.takeWhile p).length = s.dropWhile p := by
  calc s.drop (s.takeWhile p).length
      = (s.takeWhile p ++ s.dropWhile p).drop (s.takeWhile p).length := by
        rw [List.takeWhile_append_dropWhile]
    _ = s.dropWhile p := List.drop_left ..

theorem take_length_takeWhile (s : List α) :
    s.take (s.takeWhile p).length = s.takeWhile p :=
  List.prefix_iff_eq_take.mp (List.takeWhile_prefix p) |>.symm

theorem passBack_eq {low : Nat} : ∀ q : Nat, q ≤ s.length →
    passBack p s low q = .ok (q - (((s.take q).drop low).reverse.takeWhile p).length) := by
  intro q
  induction q with
  | zero => exact fun _ => by rw [Nat.zero_sub]; rfl
  | succ q inductionHypothesis =>
      intro inside
      unfold passBack
      by_cases more : low < q + 1
      · have last : (s.take (q + 1)).drop low = (s.take q).drop low ++ [s[q]] := by
          rw [List.take_succ_eq_append_getElem inside, List.drop_append_of_le_length
            (by rw [List.length_take]; omega)]
        rw [if_pos more, bind_of_ok (item_of_drop (List.drop_eq_getElem_cons inside)), last,
          List.reverse_append, List.reverse_singleton, List.singleton_append]
        cases passes : p s[q] with
        | true =>
            rw [if_pos rfl, inductionHypothesis (by omega), List.takeWhile_cons_of_pos passes,
              List.length_cons, Nat.add_sub_add_right]
        | false =>
            rw [if_neg Bool.false_ne_true, List.takeWhile_cons_of_neg (by simp [passes])]
            rfl
      · rw [if_neg more, List.drop_eq_nil_of_le (by rw [List.length_take]; omega)]
        rfl

/-- Where a pass ends, the items of its kind are behind it. -/
theorem pass_spec {i : Nat} (inside : i ≤ s.length) : ∃ q, pass p s i = .ok q ∧ i ≤ q ∧
    q ≤ s.length ∧ (s.drop i).take (q - i) = (s.drop i).takeWhile p ∧
      s.drop q = (s.drop i).dropWhile p := by
  have fits := (List.takeWhile_sublist p (l := s.drop i)).length_le
  rw [List.length_drop] at fits
  refine ⟨_, pass_eq p s i, by omega, by omega, ?_, ?_⟩
  · rw [Nat.add_sub_cancel_left, take_length_takeWhile]
  · rw [← List.drop_drop, drop_length_takeWhile]

theorem find_eq : ∀ (n i : Nat), i + n ≤ s.length →
    find p s n i = .ok ((((s.drop i).take n).findIdx? p).map (i + ·)) := by
  intro n
  induction n with
  | zero => exact fun i _ => by rw [List.take_zero]; rfl
  | succ n inductionHypothesis =>
      intro i inside
      have here := List.drop_eq_getElem_cons (show i < s.length by omega)
      unfold find
      rw [bind_of_ok (item_of_drop here), here, List.take_succ_cons, List.findIdx?_cons]
      cases hit : p s[i] with
      | true => rfl
      | false =>
          rw [if_neg Bool.false_ne_true, if_neg Bool.false_ne_true,
            inductionHypothesis (i + 1) (by omega), Option.map_map]
          refine congrArg (fun g => Except.ok (Option.map g _)) (funext fun k => ?_)
          show i + 1 + k = i + (k + 1)
          omega

theorem find_rest {i : Nat} (inside : i ≤ s.length) :
    find p s (s.length - i) i = .ok (((s.drop i).findIdx? p).map (i + ·)) := by
  rw [find_eq p _ i (by omega), List.take_of_length_le (by rw [List.length_drop])]

theorem find_whole (s : List α) : find p s s.length 0 = .ok (s.findIdx? p) := by
  have found := find_rest p (Nat.zero_le s.length)
  simpa using found

end Loops

/-! ## Loops over many -/

/-- What the first of many gives that gives anything. -/
def first (f : β → Checked (Option γ)) : List β → Checked (Option γ)
  | [] => .ok none
  | b :: rest => do
      match ← f b with
      | some c => .ok (some c)
      | none => first f rest

theorem first_eq {f : β → Checked (Option γ)} {g : β → Option γ} {bs : List β}
    (each : ∀ b ∈ bs, f b = .ok (g b)) : first f bs = .ok (bs.findSome? g) := by
  induction bs with
  | nil => rfl
  | cons b rest inductionHypothesis =>
      obtain ⟨here, later⟩ := List.forall_mem_cons.mp each
      unfold first
      rw [bind_of_ok here, List.findSome?_cons]
      cases g b with
      | some c => rfl
      | none => exact inductionHypothesis later

theorem mapM_eq {f : β → Checked γ} {g : β → γ} {bs : List β} (each : ∀ b ∈ bs, f b = .ok (g b)) :
    bs.mapM f = .ok (bs.map g) := by
  induction bs with
  | nil => rfl
  | cons b rest inductionHypothesis =>
      obtain ⟨here, later⟩ := List.forall_mem_cons.mp each
      rw [List.mapM_cons, bind_of_ok here, bind_of_ok (inductionHypothesis later)]
      rfl

/-- A program that goes through many stops with the error that one of them stops with. -/
theorem mapM_error {f : β → Checked γ} {g : β → γ} {e : Stray} {bs : List β}
    (each : ∀ b ∈ bs, f b = .ok (g b) ∨ f b = .error e) (strays : ∃ b ∈ bs, f b = .error e) :
    bs.mapM f = .error e := by
  induction bs with
  | nil => exact absurd strays (by simp)
  | cons b rest inductionHypothesis =>
      obtain ⟨here, later⟩ := List.forall_mem_cons.mp each
      rw [List.mapM_cons]
      rcases here with ok | error
      · have behind : ∃ b ∈ rest, f b = .error e := by
          obtain ⟨c, member, error⟩ := strays
          rcases List.mem_cons.mp member with rfl | member
          · rw [ok] at error
            cases error
          · exact ⟨c, member, error⟩
        rw [bind_of_ok ok, inductionHypothesis later behind]
        rfl
      · rw [error]
        rfl

end Checked

end Opencodepp.Library
