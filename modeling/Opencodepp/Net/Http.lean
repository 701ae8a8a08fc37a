import Opencodepp.Provider.Interface

/-!
# Requests on the wire and response statuses
-/

set_option autoImplicit false

namespace Opencodepp.Net

open Opencodepp.Core
open Opencodepp.Library
open Opencodepp.Provider

/-- Equality up to ASCII case. -/
def ciEquals (a b : Bytes) : Bool := a.map lowerByte = b.map lowerByte

/-- The first value of a header; empty when it is missing. -/
def httpHeader (headers : List HttpHeader) (name : Bytes) : Bytes :=
  ((headers.find? fun h => ciEquals h.name name).map (·.value)).getD []

structure HttpRequest where
  method : Bytes
  path : Bytes
  headers : List HttpHeader
  body : Bytes
  requestId : Bytes
  deriving Repr, DecidableEq

/-- The limit of a message head. -/
def maxHeadBytes : Nat := 64 * 1024

def crlf : Bytes := [0x0d, 0x0a]

/-- Append the headers one by one; none as soon as the head grows too large. -/
def appendHeaders : Bytes → List HttpHeader → Option Bytes
  | out, [] => some out
  | out, h :: rest =>
      let out := out ++ h.name ++ str ": " ++ h.value ++ crlf
      if maxHeadBytes < out.length then none else appendHeaders out rest

/-- The bytes of a request. -/
def httpBuildRequest (req : HttpRequest) : Except Failure Bytes :=
  let start := req.method ++ str " " ++ (if req.path = [] then str "/" else req.path) ++
    str " HTTP/1.1" ++ crlf
  let hasLen := req.headers.any fun h => ciEquals h.name (str "Content-Length")
  let hasRid := req.headers.any fun h => ciEquals h.name (str "X-Request-Id")
  match appendHeaders start req.headers with
  | none => .error (.of .eNetOverflow)
  | some out =>
      let out :=
        if req.body ≠ [] && !hasLen then
          out ++ str "Content-Length: " ++ decimal req.body.length ++ crlf
        else out
      let out :=
        if req.requestId ≠ [] && !hasRid then
          out ++ str "X-Request-Id: " ++ req.requestId ++ crlf
        else out
      if maxHeadBytes < out.length then .error (.of .eNetOverflow)
      else .ok (out ++ crlf ++ req.body)

/-- The error a response status stands for. -/
def httpStatusError (code : Nat) : ErrorCode :=
  if 200 ≤ code && code < 300 then .success
  else if code = 429 then ⟨.eRateLimit, 0⟩
  else if code = 401 || code = 403 then ⟨.eAuth, 0⟩
  else if 400 ≤ code && code < 600 then ⟨.eProviderErr, UInt32.ofNat code⟩
  else ⟨.eNetHttp, UInt32.ofNat code⟩

end Opencodepp.Net
