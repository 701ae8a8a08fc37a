import Mathlib.Data.List.TakeWhile
import Opencodepp.Provider.Interface

/-!
# Origins

An origin has a scheme, a host and a path; its text may name a port and may end in any number of
slashes.  `splitUrl` recovers the parts of the text, and refuses a port that is out of range, as
long as the value of the port does not come back into the range by wrapping around
(`splitUrl_promised_iff`).
-/

set_option autoImplicit false

namespace Opencodepp.Provider

open Opencodepp.Core
open Opencodepp.Library

inductive Scheme
  | http
  | https
  deriving Repr, DecidableEq

def Scheme.name : Scheme → Bytes
  | .http => str "http"
  | .https => str "https"

/-- An origin with proper parts. -/
structure Origin where
  scheme : Scheme
  host : Bytes
  path : Bytes
  hosted : host ≠ []
  noSlash : slash ∉ host
  noColon : ch ':' ∉ host
  /-- The path is empty, or it starts with a slash and ends otherwise. -/
  whole : path = [] ∨ (path.head? = some slash ∧ path.getLast? ≠ some slash)

/-- A string of digits. -/
structure Digits where
  text : Bytes
  proper : ∀ d ∈ text, isDigit d = true

def Digits.value (ds : Digits) : Nat := digitsValue ds.text

def Digits.ofNat (n : Nat) : Digits := ⟨decimal n, fun _ => isDigit_of_mem_decimal⟩

/-- A number is the value of its rendering. -/
theorem Digits.value_ofNat (n : Nat) : (ofNat n).value = n := digitsValue_decimal n

/-- A port in the text of an origin. -/
def portText : Option Digits → Bytes
  | none => []
  | some ds => ch ':' :: ds.text

namespace Origin

/-- The text of an origin, with some slashes behind it. -/
def url (o : Origin) (port : Option Digits) (slashes : Nat) : Bytes :=
  o.scheme.name ++ str "://" ++
    (o.host ++ portText port ++ (o.path ++ List.replicate slashes slash))

/-- What is promised of the text of an origin: its parts, or a refusal of the port. -/
def promised (o : Origin) : Option Digits → Except Failure UrlParts
  | none => .ok ⟨o.scheme.name, o.host, 0, o.path⟩
  | some ds =>
      if 1 ≤ ds.value ∧ ds.value ≤ 65535 then .ok ⟨o.scheme.name, o.host, ds.value, o.path⟩
      else .error (.of .eInvalidCfg)

end Origin

/-! ## Ports -/

theorem portValue_eq (digits : Bytes) : portValue digits = Int64.ofNat (digitsValue digits) := by
  have loop : ∀ (digits : Bytes) (v : Nat),
      digits.foldl (fun v c => v * 10 + Int64.ofNat (c.toNat - (ch '0').toNat)) (Int64.ofNat v) =
        Int64.ofNat (digits.foldl (fun v c => v * 10 + (c.toNat - 0x30)) v) := by
    intro digits
    induction digits with
    | nil => exact fun v => rfl
    | cons c rest inductionHypothesis =>
        intro v
        rw [List.foldl_cons, List.foldl_cons, ← inductionHypothesis, Int64.ofNat_add,
          Int64.ofNat_mul]
        rfl
  exact loop digits 0

/-- What the check of a port sees of a value: its remainder, where that is a small number. -/
theorem wrapped_range (n : Nat) :
    (¬(Int64.ofNat n < 1 ∨ 65535 < Int64.ofNat n) ↔
        1 ≤ n % 2 ^ 64 ∧ n % 2 ^ 64 ≤ 65535) ∧
      (n % 2 ^ 64 ≤ 65535 → (Int64.ofNat n).toNatClampNeg = n % 2 ^ 64) := by
  have value : (Int64.ofNat n).toInt = (n : Int).bmod (2 ^ 64) := Int64.toInt_ofNat'
  have one : (1 : Int64).toInt = 1 := rfl
  have last : (65535 : Int64).toInt = 65535 := rfl
  rw [Int64.lt_iff_toInt_lt, Int64.lt_iff_toInt_lt, one, last]
  unfold Int64.toNatClampNeg
  rw [value, Int.bmod_def]
  constructor
  · constructor
    · intro inside
      split at inside <;> omega
    · intro inside
      split <;> omega
  · intro small
    split <;> omega

theorem splitPort_eq_none {authority : Bytes} (plain : ch ':' ∉ authority) :
    splitPort authority = none := by
  have whole : (authority.reverse.takeWhile (· ≠ ch ':')) = authority.reverse := by
    rw [List.takeWhile_eq_self_iff]
    intro b member
    exact decide_eq_true fun same => plain (same ▸ List.mem_reverse.mp member)
  unfold splitPort
  dsimp only
  rw [whole, List.reverse_reverse, if_pos rfl]

theorem splitPort_eq_some {host port : Bytes} (plain : ch ':' ∉ port) :
    splitPort (host ++ ch ':' :: port) = some (host, port) := by
  have behind : (host ++ ch ':' :: port).reverse.takeWhile (· ≠ ch ':') = port.reverse := by
    rw [List.reverse_append, List.reverse_cons, List.append_assoc, List.takeWhile_append_of_pos]
    · simp
    · intro b member
      exact decide_eq_true fun same => plain (same ▸ List.mem_reverse.mp member)
  unfold splitPort
  dsimp only
  rw [behind, List.reverse_reverse, if_neg (by simp; omega)]
  have count : (host ++ ch ':' :: port).length - port.length - 1 = host.length := by
    simp only [List.length_append, List.length_cons]
    omega
  rw [count, List.take_left]

theorem colon_notMem_digits (ds : Digits) : ch ':' ∉ ds.text := fun member =>
  absurd (ds.proper _ member) (by decide)

theorem slash_notMem_digits (ds : Digits) : slash ∉ ds.text := fun member =>
  absurd (ds.proper _ member) (by decide)

theorem parseAuthority_host {o : Origin} : parseAuthority o.host = .ok (o.host, 0) := by
  unfold parseAuthority
  rw [splitPort_eq_none o.noColon]

theorem parseAuthority_port (host : Bytes) (ds : Digits) :
    parseAuthority (host ++ ch ':' :: ds.text) =
      if 1 ≤ ds.value % 2 ^ 64 ∧ ds.value % 2 ^ 64 ≤ 65535 then .ok (host, ds.value % 2 ^ 64)
      else .error (.of .eInvalidCfg) := by
  obtain ⟨inside, value⟩ := wrapped_range ds.value
  unfold parseAuthority
  rw [splitPort_eq_some (colon_notMem_digits ds)]
  dsimp only
  rw [portValue_eq]
  change ¬(Int64.ofNat (digitsValue ds.text) < 1 ∨ 65535 < Int64.ofNat (digitsValue ds.text)) ↔ _
    at inside
  by_cases empty : ds.text = []
  · have zero : ds.value = 0 := by
      unfold Digits.value
      rw [empty]
      rfl
    rw [if_pos (by simp [empty]), if_neg (by rw [zero]; decide)]
  · have all : ds.text.all isDigit = true := List.all_eq_true.mpr ds.proper
    rw [if_neg (by simp [empty, all])]
    by_cases range : 1 ≤ ds.value % 2 ^ 64 ∧ ds.value % 2 ^ 64 ≤ 65535
    · have good := inside.mpr range
      rw [if_neg (by simpa using good), if_pos range, ← value range.2]
      rfl
    · have bad := Classical.not_not.mp (mt inside.mp range)
      rw [if_pos (by simpa using bad), if_neg range]

/-! ## Splitting the text of an origin -/

theorem dropTrailingSlashes_append {path : Bytes} (ends : path.getLast? ≠ some slash) (n : Nat) :
    dropTrailingSlashes (path ++ List.replicate n slash) = path := by
  unfold dropTrailingSlashes
  rw [List.reverse_append, List.reverse_replicate, List.dropWhile_append_of_pos]
  · have kept : path.reverse.dropWhile (· = slash) = path.reverse := by
      rw [List.dropWhile_eq_self_iff]
      intro some_
      have head : path.getLast? = some (path.reverse[0]) := by
        rw [← List.head?_reverse, List.head?_eq_getElem?, List.getElem?_eq_getElem]
      intro same
      exact ends (head.trans (congrArg some (of_decide_eq_true same)))
    rw [kept, List.reverse_reverse]
  · intro b member
    exact decide_eq_true (List.eq_of_mem_replicate member)

theorem takeWhile_of_notMem {a : UInt8} {front back : Bytes} (plain : a ∉ front)
    (starts : back = [] ∨ back.head? = some a) :
    (front ++ back).takeWhile (· ≠ a) = front ∧ (front ++ back).dropWhile (· ≠ a) = back := by
  have pos (b : UInt8) (member : b ∈ front) : decide (b ≠ a) = true :=
    decide_eq_true fun same => plain (same ▸ member)
  rw [List.takeWhile_append_of_pos pos, List.dropWhile_append_of_pos pos]
  rcases starts with rfl | head
  · simp
  · obtain ⟨rest, rfl⟩ : ∃ rest, back = a :: rest := by
      cases back with
      | nil => cases head
      | cons b rest => exact ⟨rest, congrArg (· :: rest) (Option.some.inj head)⟩
    simp

theorem Origin.starts (o : Origin) (n : Nat) : o.path ++ List.replicate n slash = [] ∨
    (o.path ++ List.replicate n slash).head? = some slash := by
  rcases o.whole with empty | ⟨head, -⟩
  · rw [empty, List.nil_append]
    cases n with
    | zero => exact .inl rfl
    | succ n => exact .inr rfl
  · rw [List.head?_append, head]
    exact .inr rfl

theorem Origin.ends (o : Origin) : o.path.getLast? ≠ some slash := by
  rcases o.whole with empty | ⟨-, last⟩
  · rw [empty]
    exact fun never => nomatch never
  · exact last

theorem slash_notMem_authority (o : Origin) : ∀ port, slash ∉ o.host ++ portText port := by
  intro port member
  rcases List.mem_append.mp member with host | behind
  · exact o.noSlash host
  · cases port with
    | none => exact List.not_mem_nil behind
    | some ds =>
        rcases List.mem_cons.mp behind with colon | digit
        · exact absurd colon (by decide)
        · exact slash_notMem_digits ds digit

/-- The text of an origin is cut at the same places as it was put together. -/
theorem splitUrl_url (o : Origin) (port : Option Digits) (n : Nat) :
    splitUrl (o.url port n) =
      match parseAuthority (o.host ++ portText port) with
      | .error e => .error e
      | .ok (host, port) =>
          if host = [] then .error (.of .eInvalidCfg)
          else .ok ⟨o.scheme.name, host, port, o.path⟩ := by
  have found : indexOf (str "://") (o.url port n) = some o.scheme.name.length := by
    have early : indexOf (str "://") (o.scheme.name ++ str "://") = some o.scheme.name.length := by
      cases o.scheme <;> decide
    exact indexOf_append _ early
  have scheme : (o.url port n).take o.scheme.name.length = o.scheme.name := by
    unfold Origin.url
    rw [List.append_assoc, List.take_left]
  have rest : (o.url port n).drop (o.scheme.name.length + 3) =
      o.host ++ portText port ++ (o.path ++ List.replicate n slash) := by
    have length : (o.scheme.name ++ str "://").length = o.scheme.name.length + 3 :=
      List.length_append
    unfold Origin.url
    rw [← length, List.drop_left]
  obtain ⟨authority, path⟩ := takeWhile_of_notMem (slash_notMem_authority o port) (o.starts n)
  have some_ : o.scheme.name.length ≠ 0 := by cases o.scheme <;> decide
  have known : o.scheme.name = str "http" ∨ o.scheme.name = str "https" := by
    cases o.scheme with
    | http => exact .inl rfl
    | https => exact .inr rfl
  have hosted : o.host ++ portText port ≠ [] := fun none_ =>
    o.hosted (List.append_eq_nil_iff.mp none_).1
  unfold splitUrl
  rw [found]
  split
  · next never => cases never
  · next zero => exact absurd (Option.some.inj zero) some_
  · next sep _ same =>
      obtain rfl := Option.some.inj same
      dsimp only
      rw [scheme, rest, authority, path, dropTrailingSlashes_append o.ends]
      exact (if_neg (by simpa [or_iff_not_imp_left] using known)).trans (if_neg hosted)

theorem splitUrl_of_parsed {o : Origin} {port : Option Digits} {v : Nat}
    (parsed : parseAuthority (o.host ++ portText port) = .ok (o.host, v)) (n : Nat) :
    splitUrl (o.url port n) = .ok ⟨o.scheme.name, o.host, v, o.path⟩ := by
  rw [splitUrl_url, parsed]
  exact if_neg o.hosted

theorem splitUrl_of_refused {o : Origin} {port : Option Digits} {e : Failure}
    (refused : parseAuthority (o.host ++ portText port) = .error e) (n : Nat) :
    splitUrl (o.url port n) = .error e := by
  rw [splitUrl_url, refused]

/-- The value of a port does not come back into the range of ports by wrapping around. -/
def Digits.StaysOut (ds : Digits) : Prop :=
  65535 < ds.value → ¬(1 ≤ ds.value % 2 ^ 64 ∧ ds.value % 2 ^ 64 ≤ 65535)

/-- **Splitting an origin.**  The parts of every text of an origin are recovered, and a port that
is out of range is refused, exactly as long as the value of the port stays out of the range when
it wraps around. -/
theorem splitUrl_promised_iff (o : Origin) (port : Option Digits) (slashes : Nat) :
    splitUrl (o.url port slashes) = o.promised port ↔ ∀ ds, port = some ds → ds.StaysOut := by
  cases port with
  | none =>
      have parsed : parseAuthority (o.host ++ portText none) = .ok (o.host, 0) :=
        (congrArg parseAuthority (List.append_nil _)).trans parseAuthority_host
      exact ⟨fun _ ds never => (nomatch never), fun _ => splitUrl_of_parsed parsed slashes⟩
  | some ds =>
      have alone : (∀ ds', some ds = some ds' → ds'.StaysOut) ↔ ds.StaysOut :=
        ⟨fun all => all ds rfl, fun out ds' same => Option.some.inj same ▸ out⟩
      have parsed := parseAuthority_port o.host ds
      rw [alone]
      unfold Origin.promised Digits.StaysOut
      dsimp only
      by_cases seen : 1 ≤ ds.value % 2 ^ 64 ∧ ds.value % 2 ^ 64 ≤ 65535
      · rw [if_pos seen] at parsed
        rw [splitUrl_of_parsed parsed]
        by_cases range : 1 ≤ ds.value ∧ ds.value ≤ 65535
        · have same : ds.value % 2 ^ 64 = ds.value := Nat.mod_eq_of_lt (by omega)
          rw [if_pos range, same]
          exact ⟨fun _ past => absurd range.2 (Nat.not_le.mpr past), fun _ => rfl⟩
        · have past : 65535 < ds.value := by
            by_contra small
            rw [Nat.mod_eq_of_lt (by omega)] at seen
            exact range seen
          rw [if_neg range]
          exact ⟨fun never => (nomatch never), fun out => absurd seen (out past)⟩
      · rw [if_neg seen] at parsed
        have range : ¬(1 ≤ ds.value ∧ ds.value ≤ 65535) := by
          intro range
          rw [Nat.mod_eq_of_lt (by omega)] at seen
          exact seen range
        rw [splitUrl_of_refused parsed, if_neg range]
        exact ⟨fun _ _ => seen, fun _ => rfl⟩

/-- The parts of an origin with a port in range are recovered. -/
theorem splitUrl_port (o : Origin) {port : Nat} (low : 1 ≤ port) (high : port ≤ 65535)
    (slashes : Nat) : splitUrl (o.url (some (.ofNat port)) slashes) =
      .ok ⟨o.scheme.name, o.host, port, o.path⟩ := by
  have same : (Digits.ofNat port).value % 2 ^ 64 = port := by
    rw [Digits.value_ofNat]
    exact Nat.mod_eq_of_lt (by omega)
  have parsed := parseAuthority_port o.host (.ofNat port)
  rw [same, if_pos ⟨low, high⟩] at parsed
  exact splitUrl_of_parsed parsed slashes

/-- A port that wraps around to one. -/
def wrappedPort : Digits := .ofNat (2 ^ 64 + 1)

def plainHost : Origin :=
  ⟨.http, str "h", [], by decide, by decide, by decide, .inl rfl⟩

theorem splitUrl_wraps :
    plainHost.url (some wrappedPort) 0 = str "http://h:18446744073709551617" ∧
      splitUrl (plainHost.url (some wrappedPort) 0) = .ok ⟨str "http", str "h", 1, []⟩ ∧
      splitUrl (plainHost.url (some wrappedPort) 0) ≠ plainHost.promised (some wrappedPort) := by
  decide +kernel

end Opencodepp.Provider
