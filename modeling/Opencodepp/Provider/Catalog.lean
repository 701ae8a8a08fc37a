import Opencodepp.Library.EditDistance
import Opencodepp.Provider.Interface

/-!
# The model catalog

The models and providers known at compile time, and the resolution of a model id: by its
catalog id, or by an alias of it.

`editDistance` fills the table of a dynamic program row by row and keeps two rows of it.  It gives
up as soon as a whole row is above the limit.  `editDistance_bounded` relates it to the
Levenshtein distance: it is exact up to the limit, and above the limit it is above the limit.

`suggest` offers up to three known names that are near to an unknown one; `suggest_near` says
which ones.
-/

set_option autoImplicit false

namespace Opencodepp.Provider

open Opencodepp.Core
open Opencodepp.Library
open Opencodepp.Library.EditDistance

/-- A model of the catalog. -/
structure ModelInfo where
  id : Bytes
  provider : Bytes
  apiModelName : Bytes
  contextWindow : UInt32
  defaultMaxTokens : UInt32
  deriving Repr, DecidableEq

/-- A provider of the catalog. -/
structure ProviderInfo where
  id : Bytes
  apiFamily : Bytes
  baseUrl : Bytes
  deriving Repr, DecidableEq

/-- A row of the catalog; every model goes by its id on the wire. -/
def catalogModel (id provider : String) (contextWindow defaultMaxTokens : UInt32) : ModelInfo :=
  ⟨str id, str provider, str id, contextWindow, defaultMaxTokens⟩

def kModels : List ModelInfo :=
  [catalogModel "claude-sonnet-4-5" "anthropic" 200000 64000,
    catalogModel "claude-haiku-4-5" "anthropic" 200000 32768,
    catalogModel "gpt-4.1" "openai" 1047576 32768,
    catalogModel "gpt-4.1-mini" "openai" 1047576 32768,
    catalogModel "gpt-4.1-nano" "openai" 1047576 32768,
    catalogModel "gpt-4o" "openai" 128000 16384,
    catalogModel "o4-mini" "openai" 200000 100000,
    catalogModel "gpt-5" "openai" 400000 100000,
    catalogModel "gemini-2.5-pro" "google" 1048576 65536,
    catalogModel "gemini-2.5-flash" "google" 1048576 65536,
    catalogModel "gemini-2.5-flash-lite" "google" 1048576 65536]

def kProviders : List ProviderInfo :=
  [⟨str "anthropic", str "anthropic", str "https://api.anthropic.com"⟩,
    ⟨str "openai", str "openai", str "https://api.openai.com/v1"⟩,
    ⟨str "google", str "google", str "https://generativelanguage.googleapis.com/v1beta"⟩]

/-- An alias and the catalog id it stands for. -/
def kAliases : List (Bytes × Bytes) :=
  [("claude", "claude-sonnet-4-5"), ("claude-sonnet", "claude-sonnet-4-5"),
    ("sonnet", "claude-sonnet-4-5"), ("claude-haiku", "claude-haiku-4-5"),
    ("haiku", "claude-haiku-4-5"), ("gpt-4o", "gpt-4o"), ("o4-mini", "o4-mini"),
    ("gemini", "gemini-2.5-flash"), ("gemini-2.5-pro", "gemini-2.5-pro"),
    ("gemini-2.5-flash", "gemini-2.5-flash")].map fun (name, id) => (str name, str id)

/-- The catalog id of a model id or alias; empty when it is unknown. -/
def canonicalId (id : Bytes) : Bytes :=
  match kModels.find? (·.id = id) with
  | some m => m.id
  | none =>
      match kAliases.find? (·.1 = id) with
      | some (_, canonical) => canonical
      | none => []

def findModel (id : Bytes) : Option ModelInfo :=
  if canonicalId id = [] then none else kModels.find? (·.id = canonicalId id)

def findProvider (id : Bytes) : Option ProviderInfo := kProviders.find? (·.id = id)

/-- The wire projection of a model id. -/
def resolveModel (modelId : Bytes) : Except Failure ModelSpec :=
  match findModel modelId with
  | none => .error (.of .eModelUnsup)
  | some m =>
      match findProvider m.provider with
      | some p =>
          .ok ⟨m.provider, p.apiFamily, m.apiModelName, p.baseUrl, m.contextWindow,
            m.defaultMaxTokens⟩
      | none =>
          .ok ⟨m.provider, m.provider, m.apiModelName, [], m.contextWindow, m.defaultMaxTokens⟩

/-! ## The distance -/

/-- One row of the table behind its first cell, from the row above it, with the least cell. -/
def fillRow (x : UInt8) : List UInt32 → Bytes → UInt32 → UInt32 → List UInt32 × UInt32
  | diag :: above :: prev, y :: b, last, rowMin =>
      let del := above + 1
      let ins := last + 1
      let sub := diag + if x = y then 0 else 1
      let cell := min (min del ins) sub
      let (cells, rowMin) := fillRow x (above :: prev) b cell (min rowMin cell)
      (cell :: cells, rowMin)
  | _, _, _, rowMin => ([], rowMin)

/-- The rows of the table from row `i` on. -/
def editRows (limit : UInt32) (b : Bytes) : Bytes → Nat → List UInt32 → UInt32
  | [], _, prev => prev.getD b.length 0
  | x :: a, i, prev =>
      let first := UInt32.ofNat (i + 1)
      let (cells, rowMin) := fillRow x prev b first first
      if limit < rowMin then rowMin else editRows limit b a (i + 1) (first :: cells)

/-- The Levenshtein distance, exact up to a limit. -/
def editDistance (a b : Bytes) (limit : UInt32) : UInt32 :=
  if a = [] then UInt32.ofNat b.length
  else if b = [] then UInt32.ofNat a.length
  else editRows limit b a 0 ((List.range (b.length + 1)).map UInt32.ofNat)

/-! ## Cells of the table -/

/-- The distances of a row: of the reversed first part to ever longer parts of the second. -/
def cells (ra : Bytes) : Bytes → Bytes → List Nat
  | rb, [] => [distance ra rb]
  | rb, y :: b => distance ra rb :: cells ra (y :: rb) b

theorem cells_eq_cons (ra rb b : Bytes) : ∃ rest, cells ra rb b = distance ra rb :: rest := by
  cases b with
  | nil => exact ⟨[], rfl⟩
  | cons y b => exact ⟨_, rfl⟩

theorem cells_nil : ∀ b rb : Bytes,
    cells [] rb b = (List.range' rb.length (b.length + 1)) := by
  intro b
  induction b with
  | nil => exact fun rb => rfl
  | cons y b inductionHypothesis =>
      intro rb
      show rb.length :: cells [] (y :: rb) b = _
      rw [inductionHypothesis]
      rfl

theorem mem_cells (ra : Bytes) : ∀ (b₁ b₂ rb : Bytes),
    distance ra (b₁.reverse ++ rb) ∈ cells ra rb (b₁ ++ b₂) := by
  intro b₁
  induction b₁ with
  | nil =>
      intro b₂ rb
      obtain ⟨rest, same⟩ := cells_eq_cons ra rb b₂
      show distance ra rb ∈ cells ra rb b₂
      rw [same]
      exact List.mem_cons_self
  | cons y b₁ inductionHypothesis =>
      intro b₂ rb
      have later := inductionHypothesis b₂ (y :: rb)
      rw [List.reverse_cons, List.append_assoc]
      exact List.mem_cons_of_mem _ later

theorem getD_cells (ra : Bytes) : ∀ b rb : Bytes,
    (cells ra rb b).getD b.length 0 = distance ra (b.reverse ++ rb) := by
  intro b
  induction b with
  | nil => exact fun rb => rfl
  | cons y b inductionHypothesis =>
      intro rb
      show (cells ra (y :: rb) b).getD b.length 0 = _
      rw [inductionHypothesis, List.reverse_cons, List.append_assoc]
      rfl

theorem toNat_min (m n : UInt32) : (min m n).toNat = min m.toNat n.toNat := by
  show (if m ≤ n then m else n).toNat = _
  split
  · next less => exact (Nat.min_eq_left (UInt32.le_iff_toNat_le.mp less)).symm
  · next more =>
      rw [UInt32.le_iff_toNat_le, Nat.not_le] at more
      exact (Nat.min_eq_right (Nat.le_of_lt more)).symm

theorem toNat_add_small {m : UInt32} {n k : Nat} {c : UInt32} (cell : m.toNat = n)
    (added : c.toNat = k) (small : n + k < 2 ^ 32) : (m + c).toNat = n + k := by
  rw [UInt32.toNat_add, cell, added]
  exact Nat.mod_eq_of_lt small

/-! ## The rows -/

/-- A row is filled with the distances of the longer first part, and the least cell that is
carried along is below all of them. -/
theorem fillRow_spec {x : UInt8} {ra : Bytes} : ∀ {b rb : Bytes} {prev : List UInt32}
    {last rowMin : UInt32}, prev.map UInt32.toNat = cells ra rb b →
      last.toNat = distance (x :: ra) rb → ra.length + rb.length + b.length + 1 < 2 ^ 32 →
      (last :: (fillRow x prev b last rowMin).1).map UInt32.toNat = cells (x :: ra) rb b ∧
        (fillRow x prev b last rowMin).2.toNat ≤ rowMin.toNat ∧
        ∀ cell ∈ (fillRow x prev b last rowMin).1,
          (fillRow x prev b last rowMin).2.toNat ≤ cell.toNat := by
  intro b
  induction b with
  | nil =>
      intro rb prev last rowMin row left small
      have ends : fillRow x prev [] last rowMin = ([], rowMin) := by
        unfold fillRow
        cases prev with
        | nil => rfl
        | cons diag prev => cases prev <;> rfl
      rw [ends]
      exact ⟨congrArg (· :: []) left, Nat.le_refl _, fun cell never => nomatch never⟩
  | cons y b inductionHypothesis =>
      intro rb prev last rowMin row left small
      obtain ⟨tail, next⟩ := cells_eq_cons ra (y :: rb) b
      have whole : prev.map UInt32.toNat = distance ra rb :: distance ra (y :: rb) :: tail := by
        rw [row, ← next]
        rfl
      obtain ⟨diag, rest, rfl, diagonal, behind⟩ := List.map_eq_cons_iff.mp whole
      obtain ⟨above, rest, rfl, upper, -⟩ := List.map_eq_cons_iff.mp behind
      have boundA := distance_le_add ra (y :: rb)
      have boundB := distance_le_add (x :: ra) rb
      have boundC := distance_le_add ra rb
      simp only [List.length_cons] at boundA boundB small
      have del := toNat_add_small (k := 1) (c := 1) upper rfl (by omega)
      have ins := toNat_add_small (k := 1) (c := 1) left rfl (by omega)
      have sub : (diag + if x = y then 0 else 1).toNat = distance ra rb + substitution x y := by
        unfold substitution
        split
        · exact toNat_add_small (k := 0) diagonal rfl (by omega)
        · exact toNat_add_small (k := 1) diagonal rfl (by omega)
      unfold fillRow
      dsimp only
      generalize value : min (min (above + 1) (last + 1)) (diag + if x = y then 0 else 1) = cell
      have cellEq : cell.toNat = distance (x :: ra) (y :: rb) := by
        rw [← value, toNat_min, toNat_min, del, ins, sub, distance_cons_cons]
      obtain ⟨row, least, below⟩ := @inductionHypothesis (y :: rb) (above :: rest) cell
        (min rowMin cell) (behind.trans next.symm) cellEq (by simp only [List.length_cons]; omega)
      rw [toNat_min] at least
      refine ⟨?_, by omega, List.forall_mem_cons.mpr ⟨by omega, below⟩⟩
      show last.toNat :: _ = distance (x :: ra) rb :: cells (x :: ra) (y :: rb) b
      rw [left]
      exact congrArg (_ :: ·) row

/-- What a bounded distance promises. -/
def Bounded (limit result : UInt32) (d : Nat) : Prop :=
  (d ≤ limit.toNat → result.toNat = d) ∧ (limit.toNat < d → limit.toNat < result.toNat)

theorem bounded_of_eq {limit result : UInt32} {d : Nat} (exact_ : result.toNat = d) :
    Bounded limit result d :=
  ⟨fun _ => exact_, fun above => exact_ ▸ above⟩

/-- The rows lead to the distance.  Where a row is above the limit, so is the distance: some cell
of the row belongs to the cut of a shortest script behind this part of the first list. -/
theorem editRows_bounded {limit : UInt32} {b : Bytes} : ∀ {a ra : Bytes} {prev : List UInt32},
    prev.map UInt32.toNat = cells ra [] b → ra.length + a.length + b.length + 1 < 2 ^ 32 →
      Bounded limit (editRows limit b a ra.length prev) (distance (ra.reverse ++ a) b) := by
  intro a
  induction a with
  | nil =>
      intro ra prev row small
      refine bounded_of_eq ?_
      have cell : (prev.getD b.length 0).toNat = (prev.map UInt32.toNat).getD b.length 0 := by
        rw [List.getD_eq_getElem?_getD, List.getD_eq_getElem?_getD, List.getElem?_map]
        cases prev[b.length]? <;> rfl
      show (prev.getD b.length 0).toNat = _
      rw [cell, row, getD_cells, List.append_nil, List.append_nil, ← distance_reverse,
        List.reverse_reverse]
  | cons x a inductionHypothesis =>
      intro ra prev row small
      have first : (UInt32.ofNat (ra.length + 1)).toNat = distance (x :: ra) [] := by
        rw [distance_nil_right]
        exact Nat.mod_eq_of_lt (by simp only [List.length_cons] at small; omega)
      obtain ⟨next, least, below⟩ := @fillRow_spec x ra b [] prev _ (UInt32.ofNat (ra.length + 1))
        row first (by simp only [List.length_cons, List.length_nil] at small ⊢; omega)
      unfold editRows
      dsimp only
      generalize fillRow x prev b (UInt32.ofNat (ra.length + 1)) (UInt32.ofNat (ra.length + 1)) =
        filled at next least below ⊢
      obtain ⟨rest, rowMin⟩ := filled
      split
      · next past =>
          rw [UInt32.lt_iff_toNat_lt] at past
          -- the row has a cell that is no more than the distance
          obtain ⟨b₁, b₂, rfl, cut⟩ := distance_append_ge (ra.reverse ++ [x]) a b
          have here := mem_cells (x :: ra) b₁ b₂ []
          rw [List.append_nil, ← next] at here
          obtain ⟨cell, member, value⟩ := List.mem_map.mp here
          have low : rowMin.toNat ≤ cell.toNat := by
            rcases List.mem_cons.mp member with rfl | later
            · exact least
            · exact below cell later
          rw [value, ← distance_reverse, List.reverse_reverse, List.reverse_cons] at low
          rw [List.append_assoc] at cut
          have far := Nat.lt_of_lt_of_le past (Nat.le_trans low cut)
          exact ⟨fun near => absurd near (Nat.not_le.mpr far), fun _ => past⟩
      · have later := @inductionHypothesis (x :: ra) _ next
          (by simp only [List.length_cons] at small ⊢; omega)
        rw [List.reverse_cons, List.append_assoc] at later
        exact later

theorem bounded_editDistance {a b : Bytes} (shortA : a.length < 2 ^ 31)
    (shortB : b.length < 2 ^ 31) (limit : UInt32) :
    Bounded limit (editDistance a b limit) (distance a b) := by
  unfold editDistance
  split
  · next none_ =>
      rw [none_]
      exact bounded_of_eq (Nat.mod_eq_of_lt (by omega))
  · split
    · next none_ =>
        rw [none_, distance_nil_right]
        exact bounded_of_eq (Nat.mod_eq_of_lt (by omega))
    · have row : ((List.range (b.length + 1)).map UInt32.ofNat).map UInt32.toNat =
          cells [] [] b := by
        rw [cells_nil, List.map_map, List.range_eq_range']
        refine (List.map_congr_left fun n member => ?_).trans (List.map_id _)
        have inside := (List.mem_range'_1.mp member).2
        exact Nat.mod_eq_of_lt (by change _ < 0 + _ at inside; omega)
      exact @editRows_bounded limit b a [] _ row (by simp only [List.length_nil]; omega)

/-- **The distance is exact up to the limit**, and above the limit the result is above it. -/
theorem editDistance_bounded {a b : Bytes} (shortA : a.length < 2 ^ 31) (shortB : b.length < 2 ^ 31)
    (limit : UInt32) :
    (distance a b ≤ limit.toNat → (editDistance a b limit).toNat = distance a b) ∧
      (limit.toNat < distance a b → limit.toNat < (editDistance a b limit).toNat) :=
  bounded_editDistance shortA shortB limit

theorem editDistance_bounded_kitten :
    (distance (str "kitten") (str "sitting") ≤ (6 : UInt32).toNat →
        (editDistance (str "kitten") (str "sitting") 6).toNat =
          distance (str "kitten") (str "sitting")) ∧
      ((6 : UInt32).toNat < distance (str "kitten") (str "sitting") →
        (6 : UInt32).toNat < (editDistance (str "kitten") (str "sitting") 6).toNat) :=
  editDistance_bounded (by decide) (by decide) 6


/-! ## Suggestions -/

/-- A known name with its distance from the id that was asked for. -/
structure Cand where
  dist : UInt32
  id : Bytes
  deriving Repr, DecidableEq

/-- The names that can be suggested. -/
def knownNames : List Bytes := kModels.map (·.id) ++ kAliases.map (·.1)

def cands (id : Bytes) : List Cand := knownNames.map fun name => ⟨editDistance id name 6, name⟩

/-- Take names from a list of candidates until there are three. -/
def offer : List Cand → List Bytes → List Bytes
  | [], out => out
  | c :: rest, out =>
      if c.dist = 0 ∨ 3 < c.dist then offer rest out
      else if c.id ∈ out then offer rest out
      else if 3 ≤ (out ++ [c.id]).length then out ++ [c.id]
      else offer rest (out ++ [c.id])

/-- The names offered for an unknown model id, behind those that were there before. -/
def suggest (id : Bytes) (out : List Bytes) : List Bytes :=
  offer ((cands id).mergeSort fun a b => a.dist ≤ b.dist) out

/-- A candidate that is offered. -/
def Cand.Near (c : Cand) : Prop := ¬(c.dist = 0 ∨ 3 < c.dist)

/-- What comes of offering candidates to a list with room. -/
structure Offers (given : List Cand) (out result : List Bytes) : Prop where
  nodup : result.Nodup
  few : result.length ≤ 3
  known : ∀ s ∈ result, s ∈ out ∨ ∃ c ∈ given, c.id = s ∧ c.Near
  kept : ∀ s ∈ out, s ∈ result
  full : result.length < 3 → ∀ c ∈ given, c.Near → c.id ∈ result

theorem Offers.pass {c : Cand} {rest : List Cand} {out result : List Bytes}
    (offers : Offers rest out result) (passed : c.Near → c.id ∈ out) :
    Offers (c :: rest) out result where
  nodup := offers.nodup
  few := offers.few
  known s member := (offers.known s member).imp id
    fun ⟨d, there, same⟩ => ⟨d, List.mem_cons_of_mem _ there, same⟩
  kept := offers.kept
  full short := List.forall_mem_cons.mpr
    ⟨fun near => offers.kept _ (passed near), offers.full short⟩

theorem offers_offer : ∀ {given : List Cand} {out : List Bytes}, out.Nodup → out.length < 3 →
    Offers given out (offer given out) := by
  intro given
  induction given with
  | nil =>
      intro out nodup short
      exact ⟨nodup, Nat.le_of_lt short, fun s member => .inl member, fun s member => member,
        fun _ c never => nomatch never⟩
  | cons c rest inductionHypothesis =>
      intro out nodup short
      unfold offer
      split
      · next far => exact (inductionHypothesis nodup short).pass fun near => absurd far near
      · next near =>
          split
          · next there => exact (inductionHypothesis nodup short).pass fun _ => there
          · next new =>
              have distinct : (out ++ [c.id]).Nodup := by
                rw [List.nodup_append]
                exact ⟨nodup, List.pairwise_singleton _ _, fun a inOut b last => by
                  rintro rfl
                  exact new (List.mem_singleton.mp last ▸ inOut)⟩
              have known (s : Bytes) (member : s ∈ out ++ [c.id]) :
                  s ∈ out ∨ ∃ d ∈ c :: rest, d.id = s ∧ d.Near := by
                rcases List.mem_append.mp member with old | last
                · exact .inl old
                · exact .inr ⟨c, List.mem_cons_self, (List.mem_singleton.mp last).symm, near⟩
              split
              · next three =>
                  have length : (out ++ [c.id]).length = out.length + 1 := List.length_append
                  exact ⟨distinct, by omega, known, fun s => List.mem_append_left _,
                    fun short => absurd three (Nat.not_le.mpr short)⟩
              · next room =>
                  have later := inductionHypothesis distinct (Nat.not_le.mp room)
                  refine ⟨later.nodup, later.few, fun s member => ?_, fun s member =>
                    later.kept s (List.mem_append_left _ member), fun short =>
                    List.forall_mem_cons.mpr ⟨fun _ => later.kept _ (by simp), later.full short⟩⟩
                  rcases later.known s member with old | ⟨d, there, same⟩
                  · exact known s old
                  · exact .inr ⟨d, List.mem_cons_of_mem _ there, same⟩

/-- A name at a distance of one, two or three. -/
def NearTo (id name : Bytes) : Prop := 0 < distance id name ∧ distance id name ≤ 3

theorem length_knownNames : ∀ name ∈ knownNames, name.length < 2 ^ 31 := by decide +kernel

theorem near_iff {id name : Bytes} (short : id.length < 2 ^ 31) (known : name ∈ knownNames) :
    Cand.Near ⟨editDistance id name 6, name⟩ ↔ NearTo id name := by
  obtain ⟨within, beyond⟩ := bounded_editDistance short (length_knownNames name known) 6
  unfold Cand.Near NearTo
  rw [not_or, UInt32.lt_iff_toNat_lt, ← UInt32.toNat_inj]
  change distance id name ≤ 6 → _ at within
  change 6 < distance id name → 6 < _ at beyond
  show ¬(editDistance id name 6).toNat = 0 ∧ ¬3 < (editDistance id name 6).toNat ↔ _
  rcases Nat.lt_or_ge 6 (distance id name) with far | near
  · have past := beyond far
    omega
  · rw [within near]
    omega

/-- **Suggestions are near**: at most three known names, each a few edits from the id, and where
there are fewer than three, all such names. -/
theorem suggest_near {id : Bytes} (short : id.length < 2 ^ 31) :
    (suggest id []).Nodup ∧ (suggest id []).length ≤ 3 ∧
      (∀ name ∈ suggest id [], name ∈ knownNames ∧ NearTo id name) ∧
      ((suggest id []).length < 3 → ∀ name ∈ knownNames, NearTo id name →
        name ∈ suggest id []) := by
  have member {c : Cand} : c ∈ (cands id).mergeSort (fun a b => a.dist ≤ b.dist) ↔
      ∃ name ∈ knownNames, ⟨editDistance id name 6, name⟩ = c := by
    rw [List.mem_mergeSort]
    exact List.mem_map
  obtain ⟨nodup, few, known, -, full⟩ := @offers_offer
    ((cands id).mergeSort fun a b => a.dist ≤ b.dist) [] List.nodup_nil (by decide)
  refine ⟨nodup, few, fun name offered => ?_, fun less name there near => ?_⟩
  · rcases known name offered with never | ⟨c, given, rfl, near⟩
    · exact absurd never List.not_mem_nil
    · obtain ⟨name, there, rfl⟩ := member.mp given
      exact ⟨there, (near_iff short there).mp near⟩
  · exact full less _ (member.mpr ⟨name, there, rfl⟩) ((near_iff short there).mpr near)

end Opencodepp.Provider
