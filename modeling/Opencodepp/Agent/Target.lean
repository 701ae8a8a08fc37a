import Mathlib.Data.List.Basic
import Opencodepp.Agent.Scripted
import Opencodepp.Net.Drain

/-!
# The target of a request

An origin may have a path of its own, under which the endpoints of a provider stand.  The
adapters put it before their endpoint when they build a request, and the agent puts it before
the request's path once more.  The target on the wire is therefore the one the adapter has
built only for an origin without a path (`target_as_built_iff`).  Target and fields come from the
configuration: whatever a conversation says is in the body (`conversation_stays_in_body`).
-/

set_option autoImplicit false

namespace Opencodepp.Provider

open Opencodepp.Core
open Opencodepp.Library
open Opencodepp.Msg

namespace Adapter

/-- The origin an adapter was made for. -/
def baseUrl : Adapter → Bytes
  | .anthropic state => state.baseUrl
  | .openAi state => state.baseUrl
  | .gemini state => state.baseUrl

/-- The endpoint of the family, under the path of the origin. -/
def endpoint (model : ModelSpec) : Adapter → Bytes
  | .anthropic _ => str "/v1/messages"
  | .openAi state => state.endpointPath
  | .gemini state =>
      str "/models/" ++ model.apiModelName ++ str ":streamGenerateContent?alt=json&key=" ++
        state.apiKey

/-- An adapter builds its path from the origin and the endpoint. -/
theorem path_of_buildRequest {p : Adapter} {msgs : List Message} {tools : List ToolSpec}
    {model : ModelSpec} {budget : Budget} {req : RequestBytes}
    (built : p.buildRequest msgs tools model budget = .ok req) :
    ∃ url, splitUrl p.baseUrl = .ok url ∧ req.method = str "POST" ∧
      req.path = url.path ++ p.endpoint model := by
  cases p with
  | anthropic state =>
      show ∃ url, splitUrl state.baseUrl = .ok url ∧ _
      simp only [buildRequest, Anthropic.buildRequest] at built
      split at built
      · cases built
      · next url split_ =>
          cases built
          exact ⟨url, split_, rfl, rfl⟩
  | openAi state =>
      show ∃ url, splitUrl state.baseUrl = .ok url ∧ _
      simp only [buildRequest, OpenAi.buildRequest] at built
      split at built
      · cases built
      · next url split_ =>
          cases built
          exact ⟨url, split_, rfl, rfl⟩
  | gemini state =>
      show ∃ url, splitUrl state.baseUrl = .ok url ∧ _
      simp only [buildRequest, Gemini.buildRequest] at built
      split at built
      · cases built
      · next url split_ =>
          cases built
          exact ⟨url, split_, rfl, by simp [endpoint]⟩

/-- The key of an adapter. -/
def apiKey : Adapter → Bytes
  | .anthropic state => state.apiKey
  | .openAi state => state.apiKey
  | .gemini state => state.apiKey

/-- The fields of every request of an adapter. -/
def fields (url : UrlParts) : Adapter → List HttpHeader
  | .anthropic state =>
      [⟨str "Host", hostHeader url⟩, ⟨str "Content-Type", str "application/json"⟩,
        ⟨str "Accept", str "text/event-stream"⟩, ⟨str "x-api-key", state.apiKey⟩,
        ⟨str "anthropic-version", str "2023-06-01"⟩]
  | .openAi state =>
      [⟨str "Host", hostHeader url⟩, ⟨str "Content-Type", str "application/json"⟩,
        ⟨str "Accept", str "text/event-stream"⟩,
        ⟨str "Authorization", str "Bearer " ++ state.apiKey⟩]
  | .gemini _ =>
      [⟨str "Host", hostHeader url⟩, ⟨str "Content-Type", str "application/json"⟩,
        ⟨str "Accept", str "application/json"⟩]

/-- The fields depend on the adapter alone; the conversation goes into the body. -/
theorem fields_of_buildRequest {p : Adapter} {msgs : List Message} {tools : List ToolSpec}
    {model : ModelSpec} {budget : Budget} {req : RequestBytes} {url : UrlParts}
    (built : p.buildRequest msgs tools model budget = .ok req)
    (split_ : splitUrl p.baseUrl = .ok url) : req.headers = p.fields url ∧ req.body ≠ [] := by
  cases p with
  | anthropic state =>
      have origin : splitUrl state.baseUrl = .ok url := split_
      simp only [buildRequest, Anthropic.buildRequest, origin] at built
      cases built
      exact ⟨rfl, List.cons_ne_nil _ _⟩
  | openAi state =>
      have origin : splitUrl state.baseUrl = .ok url := split_
      simp only [buildRequest, OpenAi.buildRequest, origin] at built
      cases built
      exact ⟨rfl, List.cons_ne_nil _ _⟩
  | gemini state =>
      have origin : splitUrl state.baseUrl = .ok url := split_
      simp only [buildRequest, Gemini.buildRequest, origin] at built
      cases built
      exact ⟨rfl, List.cons_ne_nil _ _⟩

/-- Streams change neither the origin nor the endpoint. -/
theorem baseUrl_resetStream (p : Adapter) : p.resetStream.baseUrl = p.baseUrl := by
  cases p <;> rfl

theorem endpoint_resetStream (p : Adapter) (model : ModelSpec) :
    p.resetStream.endpoint model = p.endpoint model := by
  cases p <;> rfl

end Adapter

/-- An adapter is made for the origin of its configuration. -/
theorem baseUrl_makeProvider {cfg : ProviderConfig} {p : Adapter}
    (made : makeProvider cfg = .ok p) (given : cfg.baseUrl ≠ []) : p.baseUrl = cfg.baseUrl := by
  have origin (catalog : String) : originOf cfg catalog = cfg.baseUrl := if_neg given
  unfold makeProvider at made
  split at made
  · cases made
    rfl
  · split at made
    · cases made
      exact origin _
    · split at made
      · cases made
        exact origin _
      · split at made
        · cases made
          exact origin _
        · cases made

/-- Every family has an endpoint. -/
theorem endpoint_makeProvider {cfg : ProviderConfig} {p : Adapter} (model : ModelSpec)
    (made : makeProvider cfg = .ok p) : p.endpoint model ≠ [] := by
  have chat (baseUrl apiKey path : Bytes) (limit : UInt32) :
      (OpenAi.make baseUrl apiKey limit path).endpointPath ≠ [] := by
    intro missing
    unfold OpenAi.make at missing
    dsimp only at missing
    generalize (if path = [] then str "/chat/completions" else path) = given at missing
    split at missing
    · next slashed =>
        rw [missing] at slashed
        cases slashed
    · cases missing
  unfold makeProvider at made
  split at made
  · split at made
    · cases made
    · cases made
      exact chat _ _ _ _
  · split at made
    · cases made
      exact (by decide : str "/v1/messages" ≠ [])
    · split at made
      · cases made
        exact chat _ _ _ _
      · split at made
        · cases made
          have models : str "/models/" ≠ [] := by decide
          simp [Adapter.endpoint, models]
        · cases made

/-- What is known of the parts of an origin. -/
theorem parts_of_splitUrl {base : Bytes} {url : UrlParts} (split_ : splitUrl base = .ok url) :
    url.host ≠ [] ∧ ∃ path, url.path = dropTrailingSlashes path := by
  unfold splitUrl at split_
  split at split_
  · cases split_
  · cases split_
  · dsimp only at split_
    split at split_
    · cases split_
    · split at split_
      · cases split_
      · split at split_
        · cases split_
        · split at split_
          · cases split_
          · next present =>
              cases split_
              exact ⟨present, _, rfl⟩

/-- The path of an origin does not end in a slash. -/
theorem getLast_path_of_splitUrl {base : Bytes} {url : UrlParts}
    (split_ : splitUrl base = .ok url) : url.path.getLast? ≠ some slash := by
  obtain ⟨-, path, pathEq⟩ := parts_of_splitUrl split_
  rw [pathEq]
  unfold dropTrailingSlashes
  rw [List.getLast?_reverse]
  intro ends
  have other := List.head?_dropWhile_not (· = slash) path.reverse
  rw [ends] at other
  simp at other

end Opencodepp.Provider

namespace Opencodepp.Agent

open Opencodepp.Core
open Opencodepp.Library
open Opencodepp.Msg
open Opencodepp.Provider

/-- The configuration a session makes its provider from. -/
def SessionOptions.providerConfig (session : SessionOptions) : ProviderConfig :=
  ⟨session.providerId, session.apiKey, session.model.baseUrl, [], session.model.defaultMaxTokens⟩

/-- The adapter of a session, whatever it has streamed. -/
def Serves (session : SessionOptions) (p : Adapter) : Prop :=
  ∃ made, makeProvider session.providerConfig = .ok made ∧ p.resetStream = made.resetStream

theorem Serves.baseUrl {session : SessionOptions} {p : Adapter} (serves : Serves session p)
    (given : session.model.baseUrl ≠ []) : p.baseUrl = session.model.baseUrl := by
  obtain ⟨made, makes, same⟩ := serves
  rw [← p.baseUrl_resetStream, same, made.baseUrl_resetStream]
  exact baseUrl_makeProvider makes given

/-- The adapter stands behind the origin of the session. -/
theorem Serves.splitUrl_baseUrl {session : SessionOptions} {p : Adapter}
    (serves : Serves session p) {url : UrlParts}
    (split_ : splitUrl session.model.baseUrl = .ok url) : splitUrl p.baseUrl = .ok url := by
  have given : session.model.baseUrl ≠ [] := by
    intro missing
    rw [missing] at split_
    have none_ : splitUrl [] = .error (.of .eInvalidCfg) := by decide
    rw [none_] at split_
    cases split_
  rw [serves.baseUrl given, split_]

theorem Serves.endpoint_ne_nil {session : SessionOptions} {p : Adapter} (serves : Serves session p)
    (model : ModelSpec) : p.endpoint model ≠ [] := by
  obtain ⟨made, makes, same⟩ := serves
  rw [← p.endpoint_resetStream, same, made.endpoint_resetStream]
  exact endpoint_makeProvider model makes

/-- The first line of a request. -/
theorem requestLine_of_httpBuildRequest {req : Net.HttpRequest} {wire : Bytes}
    (built : Net.httpBuildRequest req = .ok wire) (given : req.path ≠ []) :
    req.method ++ str " " ++ req.path ++ str " HTTP/1.1" ++ Net.crlf <+: wire := by
  have bytes := Net.wire_of_httpBuildRequest built
  rw [if_neg given] at bytes
  rw [bytes]
  exact List.prefix_append _ _

/-- The target of a request: the path of the origin before what the adapter has built. -/
theorem requestPath_of_splitUrl {base : Bytes} {url : UrlParts} (split_ : splitUrl base = .ok url)
    (req : RequestBytes) : requestPath url req = url.path ++ req.path := by
  unfold requestPath
  rw [if_neg (getLast_path_of_splitUrl split_)]

/-- **The target on the wire is the one the adapter has built, the path of the origin before the
endpoint, exactly when the origin has no path.** -/
theorem target_as_built_iff {session : SessionOptions} {p : Adapter} (serves : Serves session p)
    {msgs : List Message} {tools : List ToolSpec} {budget : Budget} {req : RequestBytes}
    {url : UrlParts} {requestId wire : Bytes}
    (built : p.buildRequest msgs tools session.model budget = .ok req)
    (split_ : splitUrl session.model.baseUrl = .ok url)
    (sent : wireRequest url req requestId = .ok wire) :
    (str "POST" ++ str " " ++ requestPath url req ++ str " HTTP/1.1" ++ Net.crlf <+: wire) ∧
      ((requestPath url req = url.path ++ p.endpoint session.model ∧
        requestPath url req = req.path) ↔ url.path = []) := by
  have origin := serves.splitUrl_baseUrl split_
  obtain ⟨own, ownSplit, method, path⟩ := Adapter.path_of_buildRequest built
  have same : own = url := by
    rw [origin] at ownSplit
    cases ownSplit
    rfl
  rw [same] at path
  have target := requestPath_of_splitUrl split_ req
  refine ⟨?_, ?_⟩
  · have nonempty : requestPath url req ≠ [] := by
      rw [target, path]
      simp [serves.endpoint_ne_nil session.model]
    have line := requestLine_of_httpBuildRequest sent nonempty
    rwa [method] at line
  · rw [target, path]
    constructor
    · rintro ⟨-, once⟩
      simpa using once
    · intro bare
      simp [bare]

/-- A session whose model stands behind this origin. -/
def sessionAt (base : String) : SessionOptions :=
  { scriptedSession with model := ⟨str "openai_compat", str "openai", str "m", str base, 0, 0⟩ }

/-- The adapter of that session. -/
def adapterAt (base : String) : Adapter := .openAi (OpenAi.make (str base) (str "k") 0 [])

/-- What it builds for an empty conversation. -/
def requestAt (base : String) : RequestBytes :=
  match (adapterAt base).buildRequest [] [] (sessionAt base).model ⟨0, 0, 0⟩ with
  | .ok req => req
  | .error _ => ⟨[], [], [], []⟩

/-- What is put on the wire for it. -/
def wireAt (base : String) (url : UrlParts) : Bytes :=
  match wireRequest url (requestAt base) (str "s-req1") with
  | .ok wire => wire
  | .error _ => []

theorem serves_adapterAt (base : String)
    (made : makeProvider (sessionAt base).providerConfig = .ok (adapterAt base)) :
    Serves (sessionAt base) (adapterAt base) :=
  ⟨adapterAt base, made, rfl⟩

/-- The origin `http://h:1`. -/
def bareOrigin : UrlParts := ⟨str "http", str "h", 1, []⟩

theorem target_as_built_bare :
    Serves (sessionAt "http://h:1") (adapterAt "http://h:1") ∧
    splitUrl (sessionAt "http://h:1").model.baseUrl = .ok bareOrigin ∧
    requestPath bareOrigin (requestAt "http://h:1") = (requestAt "http://h:1").path := by
  have serves := serves_adapterAt "http://h:1" (by decide +kernel)
  have split_ : splitUrl (sessionAt "http://h:1").model.baseUrl = .ok bareOrigin := by
    decide +kernel
  have built : (adapterAt "http://h:1").buildRequest [] [] (sessionAt "http://h:1").model ⟨0, 0, 0⟩ =
      .ok (requestAt "http://h:1") := by decide +kernel
  have sent : wireRequest bareOrigin (requestAt "http://h:1") (str "s-req1") =
      .ok (wireAt "http://h:1" bareOrigin) := by decide +kernel
  exact ⟨serves, split_, ((target_as_built_iff serves built split_ sent).2.mpr rfl).2⟩

/-- The path of the origin stands in the target twice. -/
theorem target_repeats_origin_path :
    Serves (sessionAt "http://h:1/v1") (adapterAt "http://h:1/v1") ∧
    (adapterAt "http://h:1/v1").buildRequest [] [] (sessionAt "http://h:1/v1").model ⟨0, 0, 0⟩ =
      .ok (requestAt "http://h:1/v1") ∧
    splitUrl (sessionAt "http://h:1/v1").model.baseUrl = .ok ⟨str "http", str "h", 1, str "/v1"⟩ ∧
    (requestAt "http://h:1/v1").path = str "/v1/chat/completions" ∧
    requestPath ⟨str "http", str "h", 1, str "/v1"⟩ (requestAt "http://h:1/v1") =
      str "/v1/v1/chat/completions" ∧
    str "POST /v1/v1/chat/completions HTTP/1.1" <+:
      wireAt "http://h:1/v1" ⟨str "http", str "h", 1, str "/v1"⟩ :=
  ⟨serves_adapterAt "http://h:1/v1" (by decide +kernel), by decide +kernel, by decide +kernel,
    by decide +kernel, by decide +kernel, by decide +kernel⟩

/-! ## What stays in the body -/

open Opencodepp.Net

/-- A text of printing bytes. -/
def Ink (s : Bytes) : Prop := ∀ b ∈ s, 0x20 < b

instance (s : Bytes) : Decidable (Ink s) := List.decidableBAll (fun b => 0x20 < b) s

theorem Ink.append {s t : Bytes} (ink : Ink s) (more : Ink t) : Ink (s ++ t) := by
  intro b member
  obtain front | back := List.mem_append.mp member
  · exact ink b front
  · exact more b back

theorem Ink.notMem {s : Bytes} (ink : Ink s) {b : UInt8} (blank : b ≤ 0x20) : b ∉ s :=
  fun member => absurd (ink b member) (UInt8.not_lt.mpr blank)

theorem Ink.solid {s : Bytes} (ink : Ink s) {b : UInt8} (member : b ∈ s) : isTrimmed b = false := by
  refine Bool.eq_false_iff.mpr fun blank => ?_
  unfold isTrimmed at blank
  simp only [Bool.or_eq_true, decide_eq_true_eq] at blank
  obtain rfl | rfl := blank
  · exact ink.notMem (by decide) member
  · exact ink.notMem (by decide) member

theorem ink_decimal (n : Nat) : Ink (decimal n) := by
  intro b member
  have digit := isDigit_of_mem_decimal member
  unfold isDigit at digit
  simp only [Bool.and_eq_true, decide_eq_true_eq] at digit
  exact UInt8.lt_of_lt_of_le (by decide) digit.1

/-- A field with a plain name and a value of words. -/
theorem plainField_of_ink {name value : Bytes} (plain : 0x3a ∉ name) (unbroken : 0x0a ∉ name)
    (ink : Ink value) : PlainField ⟨name, value⟩ where
  name := plain
  line := by
    have colon : (0x0a : UInt8) ∉ str ": " := by decide
    exact oneLine_of_notMem (by simp [unbroken, colon, ink.notMem (b := 0x0a) (by decide)])
  value := trim_of_ends (fun b first => ink.solid (List.mem_of_mem_head? first))
    fun b last => ink.solid (List.mem_of_mem_getLast? last)

/-- What the configuration puts into a head is made of printing bytes, and there is a key. -/
structure PrintableHead (p : Adapter) (model : ModelSpec) (url : UrlParts) (requestId : Bytes) :
    Prop where
  host : Ink url.host
  path : Ink url.path
  endpoint : Ink (p.endpoint model)
  key : Ink p.apiKey
  keyed : p.apiKey ≠ []
  requestId : Ink requestId

theorem ink_hostHeader {url : UrlParts} (host : Ink url.host) : Ink (hostHeader url) := by
  unfold hostHeader
  have colon : Ink (str ":") := by decide
  split
  · exact (host.append colon).append (ink_decimal _)
  · exact host

theorem plainField_bearer {key : Bytes} (ink : Ink key) (keyed : key ≠ []) :
    PlainField ⟨str "Authorization", str "Bearer " ++ key⟩ where
  name := by
    show (0x3a : UInt8) ∉ str "Authorization"
    decide
  line := by
    have front : (0x0a : UInt8) ∉ str "Authorization" ++ str ": " ++ str "Bearer " := by decide
    refine oneLine_of_notMem fun member => ?_
    rw [← List.append_assoc] at member
    obtain fixed | secret := List.mem_append.mp member
    · exact front fixed
    · exact ink.notMem (by decide) secret
  value := by
    refine trim_of_ends (fun b first => ?_) fun b last => ?_
    · cases first
      rfl
    · refine ink.solid (List.mem_of_mem_getLast? (l := key) ?_)
      rwa [List.getLast?_append_of_ne_nil _ keyed] at last

theorem plainField_fields {p : Adapter} {model : ModelSpec} {url : UrlParts} {requestId : Bytes}
    (clean : PrintableHead p model url requestId) : ∀ h ∈ p.fields url, PlainField h := by
  have host : PlainField ⟨str "Host", hostHeader url⟩ :=
    plainField_of_ink (by decide) (by decide) (ink_hostHeader clean.host)
  have json (name : String) (plain : 0x3a ∉ str name) (unbroken : 0x0a ∉ str name) :
      PlainField ⟨str name, str "application/json"⟩ :=
    plainField_of_ink plain unbroken (by decide)
  have events : PlainField ⟨str "Accept", str "text/event-stream"⟩ :=
    plainField_of_ink (by decide) (by decide) (by decide)
  have version : PlainField ⟨str "anthropic-version", str "2023-06-01"⟩ :=
    plainField_of_ink (by decide) (by decide) (by decide)
  intro h member
  cases p with
  | anthropic state =>
      have key : PlainField ⟨str "x-api-key", state.apiKey⟩ :=
        plainField_of_ink (by decide) (by decide) clean.key
      simp only [Adapter.fields, List.mem_cons, List.not_mem_nil, or_false] at member
      obtain rfl | rfl | rfl | rfl | rfl := member
      · exact host
      · exact json _ (by decide) (by decide)
      · exact events
      · exact key
      · exact version
  | openAi state =>
      simp only [Adapter.fields, List.mem_cons, List.not_mem_nil, or_false] at member
      obtain rfl | rfl | rfl | rfl := member
      · exact host
      · exact json _ (by decide) (by decide)
      · exact events
      · exact plainField_bearer clean.key clean.keyed
  | gemini state =>
      simp only [Adapter.fields, List.mem_cons, List.not_mem_nil, or_false] at member
      obtain rfl | rfl | rfl := member
      · exact host
      · exact json _ (by decide) (by decide)
      · exact json _ (by decide) (by decide)

/-- No field of an adapter has the name of a field that is added. -/
theorem names_of_fields (p : Adapter) (url : UrlParts) :
    ((p.fields url).any fun h => ciEquals h.name (str "Content-Length")) = false ∧
      ((p.fields url).any fun h => ciEquals h.name (str "X-Request-Id")) = false := by
  cases p <;> exact ⟨rfl, rfl⟩

theorem hostField_of_fields (p : Adapter) (url : UrlParts) :
    httpHeader (p.fields url) (str "Host") = hostHeader url := by
  cases p <;> rfl

theorem hostHeader_ne_nil {url : UrlParts} (host : url.host ≠ []) : hostHeader url ≠ [] := by
  unfold hostHeader
  split
  · simp [host]
  · exact host

/-- **What a conversation says stays in the body of its request.**  A server takes from the wire
one request, with the target and the fields of the adapter, the length of the body, and the id; the
conversation is in the body, all of it, and what follows on the connection is left alone. -/
theorem conversation_stays_in_body {session : SessionOptions} {p : Adapter}
    (serves : Serves session p) {msgs : List Message} {tools : List ToolSpec} {budget : Budget}
    {req : RequestBytes} {url : UrlParts} {requestId wire : Bytes}
    (built : p.buildRequest msgs tools session.model budget = .ok req)
    (split_ : splitUrl session.model.baseUrl = .ok url)
    (sent : wireRequest url req requestId = .ok wire)
    (clean : PrintableHead p session.model url requestId) (more : Bytes) :
    takeRequest (wire ++ more) =
      some (⟨str "POST", url.path ++ (url.path ++ p.endpoint session.model), str "HTTP/1.1",
        p.fields url ++ ([⟨str "Content-Length", decimal req.body.length⟩] ++
          if requestId = [] then [] else [⟨str "X-Request-Id", requestId⟩]), req.body⟩, more) := by
  have origin := serves.splitUrl_baseUrl split_
  obtain ⟨own, ownSplit, method, path⟩ := Adapter.path_of_buildRequest built
  obtain rfl : own = url := by
    rw [origin] at ownSplit
    cases ownSplit
    rfl
  obtain ⟨fields, body⟩ := Adapter.fields_of_buildRequest built origin
  have target := requestPath_of_splitUrl split_ req
  rw [path] at target
  have nonempty : requestPath own req ≠ [] := by
    rw [target]
    simp [serves.endpoint_ne_nil session.model]
  have inside : 0x20 ∉ requestPath own req ∧ 0x0a ∉ requestPath own req := by
    have ink : Ink (requestPath own req) := by
      rw [target]
      exact clean.path.append (clean.path.append clean.endpoint)
    exact ⟨ink.notMem (by decide), ink.notMem (by decide)⟩
  unfold wireRequest at sent
  rw [fields, hostField_of_fields, if_neg (hostHeader_ne_nil (parts_of_splitUrl origin).1),
    method] at sent
  obtain ⟨unsized, untagged⟩ := names_of_fields p own
  have plain : PlainRequest ⟨str "POST", requestPath own req, p.fields own, req.body,
      requestId⟩ :=
    { method := by
        show (0x20 : UInt8) ∉ str "POST"
        decide
      target := inside.1
      line := by
        rw [if_neg nonempty]
        have fixed : (0x0a : UInt8) ∉ str "POST" ++ str " " ∧
          (0x0a : UInt8) ∉ str " HTTP/1.1" := by decide
        refine oneLine_of_notMem fun member => ?_
        obtain front | final := List.mem_append.mp member
        · obtain verb | path := List.mem_append.mp front
          · exact fixed.1 verb
          · exact inside.2 path
        · exact fixed.2 final
      fields := plainField_fields clean
      length := fun h member named =>
        absurd (List.any_eq_true.mpr ⟨h, member, named⟩) (by rw [unsized]; decide)
      requestId := plainField_of_ink (by decide) (by decide) clean.requestId }
  rw [takeRequest_of_plain plain sent more]
  unfold meant addedFields
  dsimp only
  rw [if_neg nonempty, unsized, untagged, target]
  by_cases none_ : requestId = []
  · simp [none_, body]
  · simp [none_, body]

/-- A turn that looks like the end of a request and another one. -/
def splitting : List Message :=
  [⟨str "m1", str "s", .user, [], [.text (str "hi\r\n\r\nGET / HTTP/1.1\r\n\r\n")], 0⟩]

theorem printableHead_adapterAt : PrintableHead (adapterAt "http://h:1")
    (sessionAt "http://h:1").model bareOrigin (str "s-req1") where
  host := by decide
  path := by decide
  endpoint := by decide
  key := by decide
  keyed := by decide
  requestId := by decide

theorem conversation_stays_in_body_splitting : ∃ req wire got,
    (adapterAt "http://h:1").buildRequest splitting [] (sessionAt "http://h:1").model ⟨0, 0, 0⟩ =
      .ok req ∧ wireRequest bareOrigin req (str "s-req1") = .ok wire ∧
    takeRequest wire = some (got, []) ∧ got.body = req.body := by
  have serves := serves_adapterAt "http://h:1" (by decide +kernel)
  have split_ : splitUrl (sessionAt "http://h:1").model.baseUrl = .ok bareOrigin := by
    decide +kernel
  have long : (((adapterAt "http://h:1").buildRequest splitting [] (sessionAt "http://h:1").model
      ⟨0, 0, 0⟩).toOption.bind fun req =>
        (wireRequest bareOrigin req (str "s-req1")).toOption).isSome = true := by decide +kernel
  have returned {α : Type} {e : Except Failure α} {a : α} (some_ : e.toOption = some a) :
      e = .ok a := by
    cases e with
    | error e => cases some_
    | ok b => exact congrArg Except.ok (Option.some.inj some_)
  obtain ⟨wire, put⟩ := Option.isSome_iff_exists.mp long
  obtain ⟨req, builds, sends⟩ := Option.bind_eq_some_iff.mp put
  have built := returned builds
  have sent := returned sends
  have taken := conversation_stays_in_body serves built split_ sent printableHead_adapterAt []
  rw [List.append_nil] at taken
  exact ⟨req, wire, _, built, sent, taken, rfl⟩

end Opencodepp.Agent
