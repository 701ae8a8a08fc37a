import Mathlib.Algebra.Ring.Rat
import Opencodepp.Core.Error
import Opencodepp.Library.ByteString

/-!
# The JSON reader and writer

The reader is the hand-written recursive descent of the engine: a fast path for
plain strings, a slow path that decodes escapes, loops for the members of an
object and the elements of an array, and the number grammar.  The position in
the input is the remaining input itself.

A number is the rational it denotes after rounding to a binary64; a literal out of
range leaves the zero the variable was initialised with.

The recursion of the reader consumes input, so it is bounded by a fuel that
`parseJson` chooses from the length of its input.
-/

set_option autoImplicit false

namespace Opencodepp.Util

open Opencodepp.Core
open Opencodepp.Library

/-- A JSON value.  Object members keep their order and may repeat a key. -/
inductive JVal
  | null
  | boolean (b : Bool)
  | number (num : Rat)
  | string (str : Bytes)
  | array (arr : List JVal)
  | object (obj : List (Bytes × JVal))

namespace JVal

/-- The first member of an object with the key; nothing for any other value. -/
def find (key : Bytes) : JVal → Option JVal
  | .object obj => obj.lookup key
  | _ => none

/-- The member as a string. -/
def findString (key : Bytes) (v : JVal) : Option Bytes :=
  match v.find key with
  | some (.string s) => some s
  | _ => none

/-- The member as a Boolean. -/
def findBool (key : Bytes) (v : JVal) : Option Bool :=
  match v.find key with
  | some (.boolean b) => some b
  | _ => none

/-- The member as a number. -/
def findNumber (key : Bytes) (v : JVal) : Option Rat :=
  match v.find key with
  | some (.number q) => some q
  | _ => none

/-- The member when it is an object. -/
def findObject (key : Bytes) (v : JVal) : Option JVal :=
  match v.find key with
  | some (.object obj) => some (.object obj)
  | _ => none

/-- The elements of the member when it is an array. -/
def findArray (key : Bytes) (v : JVal) : Option (List JVal) :=
  match v.find key with
  | some (.array arr) => some arr
  | _ => none

end JVal

/-! ## Numbers -/

/-- Round half to even the quotient of two natural numbers. -/
def roundQuotient (num den : Nat) : Nat :=
  let quotient := num / den
  let rest := num % den
  if 2 * rest > den || (2 * rest == den && quotient % 2 == 1) then quotient + 1 else quotient

/-- Multiply a natural number by a power of two, given as a numerator and a
denominator. -/
def scaleBinary (n d : Nat) (e : Int) : Nat × Nat :=
  if 0 ≤ e then (n * 2 ^ e.toNat, d) else (n, d * 2 ^ (-e).toNat)

/-- The binary64 nearest to the positive rational `n / d`; zero when it is out of
range, as a failed conversion leaves its target. -/
def roundBinary64 (n d : Nat) : Rat :=
  if n = 0 then 0
  else
    let guess : Int := (Nat.log2 n : Int) - (Nat.log2 d : Int)
    let low := scaleBinary d 1 guess
    let exponent := if n * low.2 < low.1 then guess - 1 else guess
    let ulp := max (exponent - 52) (-1074)
    let scaled := scaleBinary n d (-ulp)
    let mantissa := roundQuotient scaled.1 scaled.2
    let value := scaleBinary mantissa 1 ulp
    if value.1 < value.2 * 2 ^ 1024 then mkRat value.1 value.2 else 0

/-- The value of a number literal given by its sign, integer digits, fraction
digits, and exponent. -/
def fromChars (negative : Bool) (whole fraction : Bytes) (expNegative : Bool)
    (exponent : Bytes) : Rat :=
  let digits := digitsValue (whole ++ fraction)
  let e := digitsValue exponent
  let n := if expNegative then digits else digits * 10 ^ e
  let d := 10 ^ fraction.length * (if expNegative then 10 ^ e else 1)
  let magnitude := roundBinary64 n d
  if negative then -magnitude else magnitude

/-- The conversion of a double to an unsigned 64-bit integer: truncation towards
zero, reduced modulo the width. -/
def toUInt64 (q : Rat) : UInt64 :=
  UInt64.ofNat ((q.num.tdiv q.den) % 2 ^ 64).toNat

/-! ## The reader -/

/-- The error of the reader. -/
def parseFailure : Failure := ⟨⟨.eProtoParse, 1⟩, rfl⟩

/-- The white space of JSON. -/
def isWs (b : UInt8) : Bool := b == 0x20 || b == 0x09 || b == 0x0a || b == 0x0d

def skipWs (input : Bytes) : Bytes := input.dropWhile isWs

/-- Consume the byte when it is next. -/
def eat (b : UInt8) : Bytes → Option Bytes
  | c :: rest => if c = b then some rest else none
  | [] => none

/-- The bytes the fast path of a string runs over. -/
def isPlain (b : UInt8) : Bool := b != 0x22 && b != 0x5c && 0x20 ≤ b

/-- The value of a hexadecimal digit. -/
def hexDigit (h : UInt8) : Option UInt32 :=
  if 0x30 ≤ h && h ≤ 0x39 then some (h - 0x30).toUInt32
  else if 0x61 ≤ h && h ≤ 0x66 then some ((h - 0x61).toUInt32 + 10)
  else if 0x41 ≤ h && h ≤ 0x46 then some ((h - 0x41).toUInt32 + 10)
  else none

/-- Four hexadecimal digits. -/
def hexQuad : Bytes → Option (UInt32 × Bytes)
  | a :: b :: c :: d :: rest => do
      let a ← hexDigit a
      let b ← hexDigit b
      let c ← hexDigit c
      let d ← hexDigit d
      some ((((((a <<< 4) ||| b) <<< 4) ||| c) <<< 4) ||| d, rest)
  | _ => none

/-- A continuation byte of UTF-8 holding the six low bits. -/
def continuationByte (bits : UInt32) : UInt8 := ((bits &&& 0x3F) ||| 0x80).toUInt8

/-- The UTF-8 bytes of a code point, each cut to eight bits. -/
def utf8Encode (cp : UInt32) : Bytes :=
  if cp < 0x80 then [cp.toUInt8]
  else if cp < 0x800 then [((cp >>> 6) ||| 0xC0).toUInt8, continuationByte cp]
  else if cp < 0x10000 then
    [((cp >>> 12) ||| 0xE0).toUInt8, continuationByte (cp >>> 6), continuationByte cp]
  else
    [((cp >>> 18) ||| 0xF0).toUInt8, continuationByte (cp >>> 12),
      continuationByte (cp >>> 6), continuationByte cp]

/-- What follows a backslash and `u`: one unit, or a high surrogate with the unit
after it. -/
def unicodeEscape (input : Bytes) : Option (UInt32 × Bytes) :=
  match hexQuad input with
  | none => none
  | some (cp, rest) =>
      if 0xD800 ≤ cp && cp ≤ 0xDBFF then
        match rest with
        | 0x5c :: 0x75 :: rest =>
            match hexQuad rest with
            | none => none
            | some (lo, rest) =>
                -- the low unit is not checked; the subtraction wraps
                some (((cp - 0xD800) <<< 10) + 0x10000 + (lo - 0xDC00), rest)
        | _ => none
      else some (cp, rest)

/-- The single-byte escapes. -/
def shortEscape (e : UInt8) : Option UInt8 :=
  if e = 0x22 then some 0x22
  else if e = 0x5c then some 0x5c
  else if e = 0x2f then some 0x2f
  else if e = ch 'b' then some 0x08
  else if e = ch 'f' then some 0x0c
  else if e = ch 'n' then some 0x0a
  else if e = ch 'r' then some 0x0d
  else if e = ch 't' then some 0x09
  else none

/-- The slow path of a string: rebuild it with its escapes decoded. -/
def parseEscaped : Nat → Bytes → Bytes → Except Failure (Bytes × Bytes)
  | 0, _, _ => .error parseFailure
  | _ + 1, _, [] => .error parseFailure
  | fuel + 1, owned, c :: rest =>
      if c = 0x22 then .ok (owned, rest)
      else if c = 0x5c then
        match rest with
        | [] => .error parseFailure
        | e :: rest =>
            if e = ch 'u' then
              match unicodeEscape rest with
              | none => .error parseFailure
              | some (cp, rest) => parseEscaped fuel (owned ++ utf8Encode cp) rest
            else
              match shortEscape e with
              | none => .error parseFailure
              | some b => parseEscaped fuel (owned ++ [b]) rest
      else if c < 0x20 then .error parseFailure
      else parseEscaped fuel (owned ++ [c]) rest

/-- A string, the buffer that owns its decoded form (empty on the fast path), and
the remaining input. -/
def parseString (input : Bytes) : Except Failure (Bytes × Bytes × Bytes) :=
  match eat 0x22 input with
  | none => .error parseFailure
  | some body =>
      match eat 0x22 (body.dropWhile isPlain) with
      | some rest => .ok (body.takeWhile isPlain, [], rest)
      | none =>
          match parseEscaped (body.length + 1) [] body with
          | .error e => .error e
          | .ok (owned, rest) => .ok (owned, owned, rest)

/-- A non-empty run of digits. -/
def parseDigits (input : Bytes) : Option (Bytes × Bytes) :=
  match input.takeWhile isDigit with
  | [] => none
  | digits => some (digits, input.dropWhile isDigit)

/-- An optional fraction. -/
def parseFraction (input : Bytes) : Option (Bytes × Bytes) :=
  match eat 0x2e input with
  | none => some ([], input)
  | some rest => parseDigits rest

/-- An optional exponent: its sign and digits. -/
def parseExponent (input : Bytes) : Option (Bool × Bytes × Bytes) :=
  match input with
  | c :: rest =>
      if c = ch 'e' || c = ch 'E' then
        match rest with
        | s :: unsigned =>
            if s = 0x2b || s = 0x2d then
              (parseDigits unsigned).map fun (digits, rest) => (s = 0x2d, digits, rest)
            else (parseDigits rest).map fun (digits, rest) => (false, digits, rest)
        | [] => none
      else some (false, [], input)
  | [] => some (false, [], input)

/-- A number literal. -/
def parseNumber (input : Bytes) : Option (JVal × Bytes) := do
  let unsigned := (eat 0x2d input).getD input
  let (whole, rest) ← parseDigits unsigned
  let (fraction, rest) ← parseFraction rest
  let (expNegative, exponent, rest) ← parseExponent rest
  some (.number (fromChars (eat 0x2d input).isSome whole fraction expNegative exponent), rest)

/-- A literal name. -/
def parseName (name : Bytes) (v : JVal) (input : Bytes) : Except Failure (JVal × Bytes) :=
  if name.isPrefixOf input then .ok (v, input.drop name.length) else .error parseFailure

mutual

/-- One value. -/
def parseValue : Nat → Bytes → Except Failure (JVal × Bytes)
  | 0, _ => .error parseFailure
  | fuel + 1, input =>
      match skipWs input with
      | [] => .error parseFailure
      | c :: rest =>
          if c = 0x7b then
            match eat 0x7d (skipWs rest) with
            | some rest => .ok (.object [], rest)
            | none => parseMembers fuel [] (skipWs rest)
          else if c = 0x5b then
            match eat 0x5d (skipWs rest) with
            | some rest => .ok (.array [], rest)
            | none => parseElements fuel [] (skipWs rest)
          else if c = 0x22 then
            match parseString (c :: rest) with
            | .error e => .error e
            | .ok (s, _, rest) => .ok (.string s, rest)
          else if c = ch 't' then parseName (str "true") (.boolean true) (c :: rest)
          else if c = ch 'f' then parseName (str "false") (.boolean false) (c :: rest)
          else if c = ch 'n' then parseName (str "null") .null (c :: rest)
          else
            match parseNumber (c :: rest) with
            | none => .error parseFailure
            | some result => .ok result

/-- The members of an object after its opening brace. -/
def parseMembers : Nat → List (Bytes × JVal) → Bytes → Except Failure (JVal × Bytes)
  | 0, _, _ => .error parseFailure
  | fuel + 1, obj, input =>
      match parseString (skipWs input) with
      | .error e => .error e
      | .ok (key, owned, rest) =>
          -- keys are views into the input: a key with an escape is refused
          if owned ≠ [] then .error parseFailure
          else
            match eat 0x3a (skipWs rest) with
            | none => .error parseFailure
            | some rest =>
                match parseValue fuel rest with
                | .error e => .error e
                | .ok (val, rest) =>
                    match eat 0x7d (skipWs rest) with
                    | some rest => .ok (.object (obj ++ [(key, val)]), rest)
                    | none =>
                        match eat 0x2c (skipWs rest) with
                        | none => .error parseFailure
                        | some rest => parseMembers fuel (obj ++ [(key, val)]) rest

/-- The elements of an array after its opening bracket. -/
def parseElements : Nat → List JVal → Bytes → Except Failure (JVal × Bytes)
  | 0, _, _ => .error parseFailure
  | fuel + 1, arr, input =>
      match parseValue fuel input with
      | .error e => .error e
      | .ok (val, rest) =>
          match eat 0x5d (skipWs rest) with
          | some rest => .ok (.array (arr ++ [val]), rest)
          | none =>
              match eat 0x2c (skipWs rest) with
              | none => .error parseFailure
              | some rest => parseElements fuel (arr ++ [val]) rest

end

/-- Read one value that spans the whole input. -/
def parseJson (input : Bytes) : Except Failure JVal :=
  match parseValue (2 * input.length + 2) input with
  | .error e => .error e
  | .ok (v, rest) => if skipWs rest = [] then .ok v else .error parseFailure

/-! ## The writer -/

/-- A lower-case hexadecimal digit. -/
def hexChar (n : Nat) : UInt8 := ch (Nat.digitChar n)

/-- One byte of a string literal. -/
def writeByte (c : UInt8) : Bytes :=
  if c = 0x22 then [0x5c, 0x22]
  else if c = 0x5c then [0x5c, 0x5c]
  else if c = 0x08 then [0x5c, ch 'b']
  else if c = 0x0c then [0x5c, ch 'f']
  else if c = 0x0a then [0x5c, ch 'n']
  else if c = 0x0d then [0x5c, ch 'r']
  else if c = 0x09 then [0x5c, ch 't']
  else if c < 0x20 then
    [0x5c, ch 'u', 0x30, 0x30, hexChar (c.toNat / 16), hexChar (c.toNat % 16)]
  else [c]

/-- A string literal. -/
def writeEscaped (s : Bytes) : Bytes := 0x22 :: s.flatMap writeByte ++ [0x22]

/-- How many times a number below `d` is multiplied by ten to reach `d`. -/
def decimalShift (d : Nat) : Nat → Nat → Nat
  | 0, _ => 0
  | fuel + 1, n => if d ≤ n * 10 then 1 else decimalShift d fuel (n * 10) + 1

/-- The largest power of ten not above the positive rational `n / d`. -/
def decimalExponent (n d : Nat) : Int :=
  if d ≤ n then ((Nat.toDigits 10 (n / d)).length : Int) - 1
  else -(decimalShift d (Nat.toDigits 10 d).length n : Int)

/-- The seventeen significant digits of a positive rational and its exponent. -/
def significant (n d : Nat) : Nat × Int :=
  let exponent := decimalExponent n d
  let shift := 16 - exponent
  let digits :=
    if 0 ≤ shift then roundQuotient (n * 10 ^ shift.toNat) d
    else roundQuotient n (d * 10 ^ (-shift).toNat)
  if digits = 10 ^ 17 then (10 ^ 16, exponent + 1) else (digits, exponent)

/-- Digits without their trailing zeros. -/
def stripZeros (digits : Bytes) : Bytes := (digits.reverse.dropWhile (· = 0x30)).reverse

/-- A fraction with its point; nothing when it has no digits. -/
def withPoint (digits : Bytes) : Bytes := if digits = [] then [] else 0x2e :: digits

/-- The exponent as `printf` prints it: a sign and at least two digits. -/
def printExponent (e : Int) : Bytes :=
  let digits := decimal e.natAbs
  ch 'e' :: (if e < 0 then 0x2d else 0x2b) ::
    (if digits.length < 2 then 0x30 :: digits else digits)

/-- The rendering of a double with the format `%.17g`. -/
def formatDouble (q : Rat) : Bytes :=
  if q = 0 then [0x30]
  else
    let (mantissa, exponent) := significant q.num.natAbs q.den
    let digits := decimal mantissa
    let sign : Bytes := if q < 0 then [0x2d] else []
    if exponent < -4 || 17 ≤ exponent then
      sign ++ digits.take 1 ++ withPoint (stripZeros (digits.drop 1)) ++ printExponent exponent
    else if 0 ≤ exponent then
      sign ++ digits.take (exponent.toNat + 1) ++
        withPoint (stripZeros (digits.drop (exponent.toNat + 1)))
    else
      sign ++ [0x30] ++
        withPoint (stripZeros (List.replicate ((-exponent).toNat - 1) 0x30 ++ digits))

mutual

/-- Write one value. -/
def writeValue : JVal → Bytes
  | .null => str "null"
  | .boolean b => if b then str "true" else str "false"
  | .number q => formatDouble q
  | .string s => writeEscaped s
  | .array arr => 0x5b :: writeElements arr ++ [0x5d]
  | .object obj => 0x7b :: writeMembers obj ++ [0x7d]

def writeElements : List JVal → Bytes
  | [] => []
  | [v] => writeValue v
  | v :: rest => writeValue v ++ 0x2c :: writeElements rest

def writeMembers : List (Bytes × JVal) → Bytes
  | [] => []
  | [(key, v)] => writeEscaped key ++ 0x3a :: writeValue v
  | (key, v) :: rest => writeEscaped key ++ 0x3a :: writeValue v ++ 0x2c :: writeMembers rest

end

def toJson (v : JVal) : Bytes := writeValue v

end Opencodepp.Util
