import Lour.Lib.Isolation
import Lour.Lib.Python
/-!
# Who gets through the gateway

A request goes through the middleware from the outside in: CORS, the request id, the access
log, the security headers, the authentication; then the router asks for an admin where the
route does.  What the handlers do is a parameter, and so are SHA-256, the decoding of a token
and what the CORS middleware answers.
-/

namespace Lour.Gateway

open Lour.Lib Lour.Lib.Python

inductive Role where
  | user
  | admin
  deriving DecidableEq

structure Principal where
  subject : String
  role : Role
  deriving DecidableEq

/-- The names of headers are in lower case.  `path` is what the router matches;
`urlPath` is `request.url.path`, which is read off the `Host` header and the path: a header
with a path of its own makes it another one, and of a malformed one it raises. -/
structure HttpRequest where
  method : String
  path : String
  urlPath : Option String
  headers : List (String × String) := []

structure HttpResponse where
  status : ℕ
  headers : List (String × String) := []
  body : Json

inductive AuthMode where
  | apikey
  | jwt

/-- The claims of a verified token that are read. -/
structure Claims where
  sub : Option String
  role : Option Json

/-- The headers that the CORS middleware sets. -/
def corsHeaders : List String :=
  ["access-control-allow-origin", "access-control-allow-credentials",
    "access-control-expose-headers", "vary"]

/-- `CORSMiddleware`, as it is configured: what it answers to a preflight, and the headers
that it sets on the response to another request with an origin. -/
structure CorsMiddleware where
  preflight : HttpRequest → HttpResponse
  sets : HttpRequest → HttpResponse → List (String × String)
  sets_cors : ∀ request response, ∀ entry ∈ sets request response, entry.1 ∈ corsHeaders

/-- The settings, with the hexadecimal SHA-256 digest of a text and `jwt.decode`; a token that
is not verified has no claims. -/
structure Gate where
  authMode : AuthMode
  apiKey : String
  adminApiKey : String
  hstsEnabled : Bool := false
  hstsMaxAge : ℕ := 31536000
  sha256 : String → String
  decodeToken : String → Option Claims
  cors : CorsMiddleware

/-! ## Errors -/

structure AppError where
  message : String
  code : String
  statusCode : ℕ
  detail : Option Json := none

def authenticationError (message : String) : AppError :=
  ⟨message, "authentication_error", 401, none⟩

def authorizationError (message : String) : AppError :=
  ⟨message, "authorization_error", 403, none⟩

/-- `to_dict`. -/
def AppError.toDict (self : AppError) : Json :=
  .obj ([("error", .str self.code), ("message", .str self.message)] ++
    self.detail.toList.map fun detail => ("detail", detail))

/-- `_error_response`, and what `app_error_handler` answers. -/
def AppError.response (self : AppError) : HttpResponse where
  status := self.statusCode
  body := self.toDict

/-- What a handler raises. -/
inductive HandlerError where
  | app (e : AppError)
  | validation (errors : Json)
  | unhandled

def validationErrorResponse (errors : Json) : HttpResponse where
  status := 422
  body := .obj [("error", .str "validation_error"),
    ("message", .str "Request validation failed."), ("detail", errors)]

/-- What the client gets where nothing inside has handled an exception. -/
def unhandledResponse : HttpResponse where
  status := 500
  body := .obj [("error", .str "internal_error"),
    ("message", .str "An unexpected error occurred.")]

/-! ## Headers -/

/-- The first header of the name. -/
def header (name : String) (headers : List (String × String)) : Option String :=
  (headers.find? fun entry => entry.1 == name).map Prod.snd

/-- `headers[name] = value`. -/
def setHeader (name value : String) : List (String × String) → List (String × String)
  | [] => [(name, value)]
  | entry :: rest =>
      if entry.1 = name then (name, value) :: rest.filter fun other => other.1 ≠ name
      else entry :: setHeader name value rest

def setDefault (headers : List (String × String)) (entry : String × String) :
    List (String × String) :=
  if (header entry.1 headers).isSome then headers else headers ++ [entry]

def staticHeaders : List (String × String) :=
  [("x-content-type-options", "nosniff"), ("x-frame-options", "DENY"),
    ("referrer-policy", "no-referrer"), ("content-security-policy", "frame-ancestors 'none'"),
    ("permissions-policy", "geolocation=(), microphone=(), camera=()")]

def Gate.securityHeaders (self : Gate) : List (String × String) :=
  staticHeaders ++
    if self.hstsEnabled then
      [("strict-transport-security", s!"max-age={self.hstsMaxAge}; includeSubDomains")]
    else []

def HttpResponse.stamp (entries : List (String × String)) (self : HttpResponse) : HttpResponse :=
  { self with headers := entries.foldl setDefault self.headers }

def HttpResponse.withHeader (name value : String) (self : HttpResponse) : HttpResponse :=
  { self with headers := setHeader name value self.headers }

def HttpResponse.withHeaders (entries : List (String × String)) (self : HttpResponse) :
    HttpResponse :=
  entries.foldl (fun response entry => response.withHeader entry.1 entry.2) self

/-! ## Authentication -/

def publicPaths : List String :=
  ["/", "/healthz", "/readyz", "/metrics", "/docs", "/redoc", "/openapi.json"]

/-- `dispatch` lets the request through as it is. -/
def HttpRequest.isOpen (self : HttpRequest) : Bool :=
  self.urlPath.any publicPaths.contains || self.method == "OPTIONS"

/-- The route itself needs no credentials. -/
def HttpRequest.isPublic (self : HttpRequest) : Bool :=
  publicPaths.contains self.path || self.method == "OPTIONS"

namespace Gate

variable (self : Gate)

def principal (key : String) (role : Role) : Principal where
  subject := String.ofList ((self.sha256 key).toList.take 16)
  role := role

/-- `identify_api_key`: keys are compared by their digests. -/
def identifyApiKey (candidate : String) : Option Principal :=
  let isAdmin := self.sha256 candidate == self.sha256 self.adminApiKey
  let isUser := self.sha256 candidate == self.sha256 self.apiKey
  if isAdmin then some (self.principal candidate .admin)
  else if isUser then some (self.principal candidate .user)
  else none

/-- `Role(raw)`, with `USER` for what is no role. -/
def readRole : Option Json → Role
  | some (.str raw) => if raw = "admin" then .admin else .user
  | _ => .user

/-- `decode_access_token`. -/
def decodeAccessToken (token : String) : Option Principal :=
  (self.decodeToken token).bind fun claims =>
    match claims.sub with
    | none => none
    | some subject => if subject = "" then none else some ⟨subject, readRole claims.role⟩

def authApiKey (request : HttpRequest) : Except AppError Principal :=
  let key := (header "x-api-key" request.headers).getD ""
  if key = "" then .error (authenticationError "Missing API key.")
  else
    match self.identifyApiKey key with
    | some principal => .ok principal
    | none => .error (authorizationError "Invalid API key.")

def bearerPrefix : List Char := "Bearer ".toList

def authJwt (request : HttpRequest) : Except AppError Principal :=
  let value := ((header "authorization" request.headers).getD "").toList
  if bearerPrefix.isPrefixOf value then
    match self.decodeAccessToken (strip (String.ofList (value.drop bearerPrefix.length))) with
    | some principal => .ok principal
    | none => .error (authorizationError "Invalid or expired token.")
  else .error (authenticationError "Missing bearer token.")

def authenticate (request : HttpRequest) : Except AppError Principal :=
  match self.authMode with
  | .jwt => self.authJwt request
  | .apikey => self.authApiKey request

end Gate

/-! ## The stack -/

/-- A request, and the id that `new_request_id` would give it. -/
structure Arrival where
  request : HttpRequest
  freshId : String

/-- What the middleware has attached to the request on the way in. -/
structure Scope where
  arrival : Arrival
  requestId : Option String := none
  principal : Option Principal := none

/-- A handler was called, or the access log has got an entry. -/
inductive GateEvent where
  | called (scope : Scope)
  | logged (method path : String) (status : ℕ)

/-- What the request did to the application, what happened on the way, and the response;
`none` where an exception goes through. -/
abbrev Handler (σ : Type) := Scope → σ → σ × List GateEvent × Option HttpResponse

/-- The handlers: those that depend on `require_admin`, and whatever else the router does. -/
structure Routes (σ : Type) where
  admin : Scope → σ → σ × Except HandlerError HttpResponse
  other : Scope → σ → σ × Except HandlerError HttpResponse

def adminRoutes : List (String × String) :=
  [("GET", "/v1/admin/metrics"), ("POST", "/v1/admin/reload-skills"),
    ("POST", "/v1/admin/cache-invalidate")]

def HttpRequest.isAdminRoute (self : HttpRequest) : Bool :=
  adminRoutes.contains (self.method, self.path)

/-- `require_admin`, over `get_principal`. -/
def requireAdmin (scope : Scope) : Except AppError Principal :=
  match scope.principal with
  | none => .error (authenticationError "Authentication required.")
  | some principal =>
      if principal.role = .admin then .ok principal
      else .error (authorizationError "Admin privileges required.")

/-- The exception handlers of the application. -/
def handled : Except HandlerError HttpResponse → Option HttpResponse
  | .ok response => some response
  | .error (.app e) => some e.response
  | .error (.validation errors) => some (validationErrorResponse errors)
  | .error .unhandled => none

section Stack

variable {σ : Type}

def called (handler : Scope → σ → σ × Except HandlerError HttpResponse) : Handler σ :=
  fun scope s =>
    let (s, result) := handler scope s
    (s, [.called scope], handled result)

def router (routes : Routes σ) : Handler σ := fun scope s =>
  if scope.arrival.request.isAdminRoute then
    match requireAdmin scope with
    | .error e => (s, [], some e.response)
    | .ok _ => called routes.admin scope s
  else called routes.other scope s

/-- `AuthMiddleware.dispatch`. -/
def auth (gate : Gate) (next : Handler σ) : Handler σ := fun scope s =>
  if scope.arrival.request.isOpen then next scope s
  else
    match gate.authenticate scope.arrival.request with
    | .error e => (s, [], some e.response)
    | .ok principal => next { scope with principal := some principal } s

/-- `SecurityHeadersMiddleware.dispatch`. -/
def securityHeaders (gate : Gate) (next : Handler σ) : Handler σ := fun scope s =>
  let (s, events, response) := next scope s
  (s, events, response.map (HttpResponse.stamp gate.securityHeaders))

def skipPaths : List String := ["/healthz", "/readyz", "/metrics"]

/-- `AccessLoggingMiddleware.dispatch`. -/
def accessLogging (next : Handler σ) : Handler σ := fun scope s =>
  match scope.arrival.request.urlPath with
  | none => (s, [], none)
  | some path =>
      let (s, events, response) := next scope s
      if skipPaths.contains path then (s, events, response)
      else
        let status := (response.map HttpResponse.status).getD 500
        (s, events ++ [.logged scope.arrival.request.method path status], response)

/-- The id of the request: its own, or a new one. -/
def Arrival.requestId (self : Arrival) : String :=
  let own := (header "x-request-id" self.request.headers).getD ""
  if own = "" then self.freshId else own

/-- `RequestIDMiddleware.dispatch`. -/
def requestIds (next : Handler σ) : Handler σ := fun scope s =>
  let id := scope.arrival.requestId
  let (s, events, response) := next { scope with requestId := some id } s
  (s, events, response.map (HttpResponse.withHeader "x-request-id" id))

def HttpRequest.hasOrigin (self : HttpRequest) : Bool := (header "origin" self.headers).isSome

def HttpRequest.isPreflight (self : HttpRequest) : Bool :=
  self.method == "OPTIONS" && self.hasOrigin &&
    (header "access-control-request-method" self.headers).isSome

/-- `CORSMiddleware`: a preflight goes no further. -/
def cors (gate : Gate) (next : Handler σ) : Handler σ := fun scope s =>
  let request := scope.arrival.request
  if request.isPreflight then (s, [], some (gate.cors.preflight request))
  else
    let (s, events, response) := next scope s
    if request.hasOrigin then
      (s, events, response.map fun response =>
        response.withHeaders (gate.cors.sets request response))
    else (s, events, response)

/-- What is inside the CORS middleware. -/
def insideCors (gate : Gate) (routes : Routes σ) : Handler σ :=
  requestIds (accessLogging (securityHeaders gate (auth gate (router routes))))

def gateway (gate : Gate) (routes : Routes σ) : Handler σ := cors gate (insideCors gate routes)

/-- A request that was answered. -/
structure Served where
  arrival : Arrival
  events : List GateEvent
  crashed : Bool
  response : HttpResponse

def serve (gate : Gate) (routes : Routes σ) (arrival : Arrival) (s : σ) : σ × Served :=
  let (s, events, response) := gateway gate routes { arrival } s
  (s, ⟨arrival, events, response.isNone, response.getD unhandledResponse⟩)

def gatewaySystem (gate : Gate) (routes : Routes σ) : System σ Arrival Served :=
  ⟨fun s arrival =>
    let (s, served) := serve gate routes arrival s
    some (s, [served])⟩

end Stack

/-! ## What the layers promise -/

/-- The request shows that its caller has the role. -/
def Gate.Presents (gate : Gate) (request : HttpRequest) (role : Role) : Prop :=
  match gate.authMode with
  | .apikey => ∃ key, header "x-api-key" request.headers = some key ∧ key ≠ "" ∧
      match role with
      | .admin => gate.sha256 key = gate.sha256 gate.adminApiKey
      | .user => gate.sha256 key = gate.sha256 gate.apiKey ∧
          gate.sha256 key ≠ gate.sha256 gate.adminApiKey
  | .jwt => ∃ token claims subject,
      header "authorization" request.headers = some ("Bearer " ++ token) ∧
      gate.decodeToken (strip token) = some claims ∧ claims.sub = some subject ∧ subject ≠ "" ∧
      (role = .admin ↔ claims.role = some (.str "admin"))

/-- The request shows nothing of its caller. -/
def Gate.NoCredentials (gate : Gate) (request : HttpRequest) : Prop :=
  match gate.authMode with
  | .apikey => (header "x-api-key" request.headers).getD "" = ""
  | .jwt => ∀ token, header "authorization" request.headers ≠ some ("Bearer " ++ token)

/-- Inside the CORS middleware a handler is called for the request.  On an open path nobody is
an admin. -/
def MayCall (gate : Gate) (request : HttpRequest) : Prop :=
  if request.isAdminRoute then request.isOpen = false ∧ gate.Presents request .admin
  else request.isOpen = true ∨ ∃ role, gate.Presents request role

/-- A handler is called for the request. -/
def Admitted (gate : Gate) (request : HttpRequest) : Prop :=
  request.isPreflight = false ∧ request.urlPath.isSome = true ∧ MayCall gate request

/-- The status of a request that is turned away: 401 where there is no caller, 403 where
there is the wrong one. -/
def Refused (gate : Gate) (request : HttpRequest) (status : ℕ) : Prop :=
  (request.isOpen = true ∨ gate.NoCredentials request) ∧ status = 401 ∨
    request.isOpen = false ∧ ¬ gate.NoCredentials request ∧ status = 403

def GateEvent.scope? : GateEvent → Option Scope
  | .called scope => some scope
  | .logged _ _ _ => none

def GateEvent.entry? : GateEvent → Option (String × String × ℕ)
  | .called _ => none
  | .logged method path status => some (method, path, status)

/-- Whom a handler is called for. -/
structure CalledFor (gate : Gate) (arrival : Arrival) (scope : Scope) : Prop where
  arrived : scope.arrival = arrival
  identified : scope.requestId = some arrival.requestId
  caller : scope.principal = none ∧ arrival.request.isOpen = true ∨
    ∃ principal, scope.principal = some principal ∧
      gate.Presents arrival.request principal.role
  /-- Where `request.url` shows the path that is routed. -/
  routed : arrival.request.urlPath = some arrival.request.path → arrival.request.isPublic = false →
    ∃ principal, scope.principal = some principal ∧
      gate.Presents arrival.request principal.role
  admin : arrival.request.isAdminRoute = true →
    ∃ principal, scope.principal = some principal ∧ principal.role = .admin

/-- What holds of every request that was answered.  Preflights are answered by the CORS
middleware, outside all the rest, and a URL that cannot be read raises before anything is
called or logged. -/
structure Answers (gate : Gate) (served : Served) : Prop where
  called : (∃ scope, served.events.filterMap GateEvent.scope? = [scope] ∧
      CalledFor gate served.arrival scope) ∧ Admitted gate served.arrival.request ∨
    served.events.filterMap GateEvent.scope? = [] ∧ ¬ Admitted gate served.arrival.request ∧
      (served.arrival.request.isPreflight = false → served.arrival.request.urlPath.isSome = true →
        served.crashed = false ∧ Refused gate served.arrival.request served.response.status)
  preflight : served.arrival.request.isPreflight = true →
    served.events = [] ∧ served.crashed = false ∧
      served.response = gate.cors.preflight served.arrival.request
  unread : served.arrival.request.isPreflight = false → served.arrival.request.urlPath = none →
    served.events = [] ∧ served.crashed = true ∧ served.response = unhandledResponse
  stamped : served.arrival.request.isPreflight = false → served.crashed = false →
    header "x-request-id" served.response.headers = some served.arrival.requestId ∧
      ∀ name, (header name gate.securityHeaders).isSome →
        (header name served.response.headers).isSome
  logged : served.arrival.request.isPreflight = false →
    ∀ path, served.arrival.request.urlPath = some path →
      served.events.filterMap GateEvent.entry? =
        if skipPaths.contains path then []
        else [(served.arrival.request.method, path, served.response.status)]

section Headers

variable {name value : String} {headers : List (String × String)}

theorem header_cons_of_ne {entry : String × String} (h : entry.1 ≠ name) :
    header name (entry :: headers) = header name headers := by
  simp [header, h]

theorem header_append (xs ys : List (String × String)) :
    header name (xs ++ ys) = (header name xs).or (header name ys) := by
  unfold header
  rw [List.find?_append]
  cases xs.find? fun entry => entry.1 == name <;> rfl

theorem header_setDefault (entry : String × String) :
    header name (setDefault headers entry) = (header name headers).or (header name [entry]) := by
  unfold setDefault
  split
  next hsome =>
      by_cases hname : entry.1 = name
      · rw [← hname] at *
        obtain ⟨own, hown⟩ := Option.isSome_iff_exists.mp hsome
        rw [hown]
        rfl
      · rw [header_cons_of_ne hname]
        exact (Option.or_none ..).symm
  next => exact header_append headers [entry]

/-- A stamp adds what is not there. -/
theorem header_foldl (entries : List (String × String)) :
    header name (entries.foldl setDefault headers) =
      (header name headers).or (header name entries) := by
  induction entries generalizing headers with
  | nil =>
      show header name headers = (header name headers).or none
      rw [Option.or_none]
  | cons entry entries ih =>
      calc header name ((entry :: entries).foldl setDefault headers)
          = (header name (setDefault headers entry)).or (header name entries) := ih
        _ = ((header name headers).or (header name [entry])).or (header name entries) := by
          rw [header_setDefault]
        _ = (header name headers).or (header name (entry :: entries)) := by
          rw [Option.or_assoc, ← header_append]
          rfl

theorem header_setHeader_self : header name (setHeader name value headers) = some value := by
  induction headers with
  | nil => simp [setHeader, header]
  | cons entry rest ih =>
      unfold setHeader
      split
      next => simp [header]
      next hne =>
          rw [header_cons_of_ne hne, ih]

theorem header_setHeader_of_ne {other : String} (h : other ≠ name) :
    header other (setHeader name value headers) = header other headers := by
  induction headers with
  | nil => simp [setHeader, header, h.symm]
  | cons entry rest ih =>
      unfold setHeader
      split
      next heq =>
          have hfilter : (rest.filter fun e => e.1 ≠ name).find? (fun e => e.1 == other) =
              rest.find? fun e => e.1 == other := by
            rw [List.find?_filter]
            congr 1
            funext e
            by_cases he : e.1 = other
            · simp [he, h]
            · simp [he]
          have hrest : header other (rest.filter fun e => e.1 ≠ name) = header other rest :=
            congrArg (Option.map Prod.snd) hfilter
          rw [header_cons_of_ne h.symm, header_cons_of_ne (by rw [heq]; exact h.symm), hrest]
      next =>
          by_cases he : entry.1 = other
          · simp [header, he]
          · rw [header_cons_of_ne he, header_cons_of_ne he, ih]

theorem isSome_header_setHeader {other : String} (h : (header other headers).isSome) :
    (header other (setHeader name value headers)).isSome := by
  by_cases hname : other = name
  · rw [hname, header_setHeader_self]
    rfl
  · rwa [header_setHeader_of_ne hname]

variable {entries : List (String × String)} {response : HttpResponse}

theorem header_withHeaders_of_ne (h : ∀ entry ∈ entries, name ≠ entry.1) :
    header name (response.withHeaders entries).headers = header name response.headers := by
  induction entries generalizing response with
  | nil => rfl
  | cons entry entries ih =>
      have hrest := @ih (response.withHeader entry.1 entry.2)
        fun other hother => h other (List.mem_cons_of_mem _ hother)
      exact hrest.trans (header_setHeader_of_ne (h entry (List.mem_cons_self ..)))

theorem isSome_header_withHeaders (h : (header name response.headers).isSome) :
    (header name (response.withHeaders entries).headers).isSome := by
  induction entries generalizing response with
  | nil => exact h
  | cons entry entries ih =>
      apply @ih (response.withHeader entry.1 entry.2)
      exact isSome_header_setHeader h

theorem status_withHeaders : (response.withHeaders entries).status = response.status := by
  induction entries generalizing response with
  | nil => rfl
  | cons entry entries ih => exact @ih (response.withHeader entry.1 entry.2)

end Headers

section Credentials

variable {gate : Gate} {request : HttpRequest}

theorem identifyApiKey_role {key : String} {role : Role} :
    (∃ principal, gate.identifyApiKey key = some principal ∧ principal.role = role) ↔
      match role with
      | .admin => gate.sha256 key = gate.sha256 gate.adminApiKey
      | .user => gate.sha256 key = gate.sha256 gate.apiKey ∧
          gate.sha256 key ≠ gate.sha256 gate.adminApiKey := by
  unfold Gate.identifyApiKey
  by_cases hadmin : gate.sha256 key = gate.sha256 gate.adminApiKey
  · cases role <;> simp [hadmin, Gate.principal]
  · have hnot : (gate.sha256 key == gate.sha256 gate.adminApiKey) = false :=
      beq_eq_false_iff_ne.mpr hadmin
    by_cases huser : gate.sha256 key = gate.sha256 gate.apiKey
    · have hyes : (gate.sha256 key == gate.sha256 gate.apiKey) = true := beq_iff_eq.mpr huser
      simp only [hnot, hyes]
      cases role with
      | user => exact iff_of_true ⟨_, rfl, rfl⟩ ⟨huser, hadmin⟩
      | admin => simp [hadmin, Gate.principal]
    · cases role <;> simp [hadmin, huser]

theorem readRole_admin {raw : Option Json} :
    Gate.readRole raw = .admin ↔ raw = some (.str "admin") := by
  unfold Gate.readRole
  split
  next raw => simp
  next hother =>
      constructor
      · intro h
        cases h
      · intro h
        exact absurd h (hother "admin")

theorem decodeAccessToken_role {token : String} {role : Role} :
    (∃ principal, gate.decodeAccessToken token = some principal ∧ principal.role = role) ↔
      ∃ claims subject, gate.decodeToken token = some claims ∧ claims.sub = some subject ∧
        subject ≠ "" ∧ (role = .admin ↔ claims.role = some (.str "admin")) := by
  unfold Gate.decodeAccessToken
  cases hclaims : gate.decodeToken token with
  | none => simp
  | some claims =>
      cases hsub : claims.sub with
      | none => simp [hsub]
      | some subject =>
          have hrole : Gate.readRole claims.role = role ↔
              (role = .admin ↔ claims.role = some (.str "admin")) := by
            rw [← readRole_admin]
            cases Gate.readRole claims.role <;> cases role <;> simp
          by_cases hempty : subject = ""
          · simp [hsub, hempty]
          · simp [hsub, hempty, hrole]

/-- A text that begins with the prefix is the prefix and the rest. -/
theorem bearer_iff {value : String} :
    Gate.bearerPrefix.isPrefixOf value.toList = true ↔ ∃ token, value = "Bearer " ++ token := by
  rw [List.isPrefixOf_iff_prefix]
  constructor
  · intro h
    obtain ⟨rest, hrest⟩ := h
    refine ⟨String.ofList rest, String.ext ?_⟩
    have htoken : (String.ofList rest).toList = rest := String.toList_ofList
    rw [String.toList_append, htoken]
    exact hrest.symm
  · intro h
    obtain ⟨token, rfl⟩ := h
    rw [String.toList_append]
    exact List.prefix_append _ _

theorem getD_ne_empty {shown : Option String} (h : shown.getD "" ≠ "") :
    shown = some (shown.getD "") := by
  cases shown with
  | none => exact absurd rfl h
  | some value => rfl

theorem presents_apikey {key : String} (hmode : gate.authMode = .apikey)
    (hkey : header "x-api-key" request.headers = some key) (hne : key ≠ "") (role : Role) :
    gate.Presents request role ↔
      ∃ principal, gate.identifyApiKey key = some principal ∧ principal.role = role := by
  rw [identifyApiKey_role]
  unfold Gate.Presents
  rw [hmode, hkey]
  constructor
  · intro h
    obtain ⟨key', hsame, -, hdigest⟩ := h
    rw [Option.some.inj hsame]
    exact hdigest
  · intro h
    exact ⟨key, rfl, hne, h⟩

theorem bearer_cancel {token token' : String} (h : "Bearer " ++ token = "Bearer " ++ token') :
    token = token' := by
  have hchars := congrArg String.toList h
  rw [String.toList_append, String.toList_append] at hchars
  exact String.ext (List.append_cancel_left hchars)

theorem presents_jwt {token : String} (hmode : gate.authMode = .jwt)
    (hvalue : header "authorization" request.headers = some ("Bearer " ++ token)) (role : Role) :
    gate.Presents request role ↔
      ∃ principal, gate.decodeAccessToken (strip token) = some principal ∧
        principal.role = role := by
  rw [decodeAccessToken_role]
  unfold Gate.Presents
  rw [hmode, hvalue]
  constructor
  · intro h
    obtain ⟨token', claims, subject, hsame, hclaims⟩ := h
    obtain rfl := bearer_cancel (Option.some.inj hsame)
    exact ⟨claims, subject, hclaims⟩
  · intro h
    obtain ⟨claims, subject, hclaims⟩ := h
    exact ⟨token, claims, subject, rfl, hclaims⟩

/-- What the authentication makes of a request. -/
inductive Verdict (gate : Gate) (request : HttpRequest) : Except AppError Principal → Prop
  | missing {e : AppError} (none : gate.NoCredentials request) (status : e.statusCode = 401)
      (nobody : ∀ role, ¬ gate.Presents request role) : Verdict gate request (.error e)
  | wrong {e : AppError} (shown : ¬ gate.NoCredentials request) (status : e.statusCode = 403)
      (nobody : ∀ role, ¬ gate.Presents request role) : Verdict gate request (.error e)
  | caller {principal : Principal} (shown : ¬ gate.NoCredentials request)
      (role : ∀ role, gate.Presents request role ↔ principal.role = role) :
      Verdict gate request (.ok principal)

theorem Verdict.of_none {e : AppError} (hshown : ¬ gate.NoCredentials request)
    (hstatus : e.statusCode = 403)
    (hpresents : ∀ role, gate.Presents request role ↔
      ∃ principal : Principal, none = some principal ∧ principal.role = role) :
    Verdict gate request (.error e) := by
  apply Verdict.wrong hshown hstatus
  intro role h
  obtain ⟨principal, hnone, -⟩ := (hpresents role).mp h
  cases hnone

theorem Verdict.of_some {principal : Principal} (hshown : ¬ gate.NoCredentials request)
    (hpresents : ∀ role, gate.Presents request role ↔
      ∃ other, some principal = some other ∧ other.role = role) :
    Verdict gate request (.ok principal) := by
  apply Verdict.caller hshown
  intro role
  rw [hpresents role]
  simp

theorem authApiKey_verdict (hmode : gate.authMode = .apikey) :
    Verdict gate request (gate.authApiKey request) := by
  have hnone : gate.NoCredentials request ↔
      (header "x-api-key" request.headers).getD "" = "" := by
    unfold Gate.NoCredentials
    rw [hmode]
  unfold Gate.authApiKey
  dsimp only
  split
  next hempty =>
      apply Verdict.missing (hnone.mpr hempty) rfl
      intro role h
      unfold Gate.Presents at h
      rw [hmode] at h
      obtain ⟨key, hkey, hne, -⟩ := h
      rw [hkey] at hempty
      exact hne hempty
  next hne =>
      have hshown : ¬ gate.NoCredentials request := fun h => hne (hnone.mp h)
      have hpresents := presents_apikey hmode (getD_ne_empty hne) hne
      cases hfound : gate.identifyApiKey ((header "x-api-key" request.headers).getD "") with
      | none =>
          rw [hfound] at hpresents
          exact Verdict.of_none hshown rfl hpresents
      | some principal =>
          rw [hfound] at hpresents
          exact Verdict.of_some hshown hpresents

theorem authJwt_verdict (hmode : gate.authMode = .jwt) :
    Verdict gate request (gate.authJwt request) := by
  have hnone : gate.NoCredentials request ↔
      ∀ token, header "authorization" request.headers ≠ some ("Bearer " ++ token) := by
    unfold Gate.NoCredentials
    rw [hmode]
  unfold Gate.authJwt
  dsimp only
  split
  next hprefix =>
      obtain ⟨token, htoken⟩ := bearer_iff.mp hprefix
      have hvalue : header "authorization" request.headers = some ("Bearer " ++ token) := by
        rw [← htoken]
        apply getD_ne_empty
        rw [htoken]
        intro hempty
        have hchars := congrArg String.toList hempty
        rw [String.toList_append] at hchars
        exact absurd (congrArg List.length hchars) (by simp)
      have hrest : strip (String.ofList (((header "authorization" request.headers).getD
          "").toList.drop Gate.bearerPrefix.length)) = strip token := by
        rw [htoken, String.toList_append]
        show strip (String.ofList ((Gate.bearerPrefix ++ token.toList).drop
          Gate.bearerPrefix.length)) = strip token
        rw [List.drop_left, String.ofList_toList]
      rw [hrest]
      have hshown : ¬ gate.NoCredentials request := fun h => hnone.mp h token hvalue
      have hpresents := presents_jwt hmode hvalue
      cases hfound : gate.decodeAccessToken (strip token) with
      | none =>
          rw [hfound] at hpresents
          exact Verdict.of_none hshown rfl hpresents
      | some principal =>
          rw [hfound] at hpresents
          exact Verdict.of_some hshown hpresents
  next hnot =>
      have hother : ∀ token, header "authorization" request.headers ≠
          some ("Bearer " ++ token) := by
        intro token hvalue
        apply hnot
        rw [hvalue]
        exact bearer_iff.mpr ⟨token, rfl⟩
      apply Verdict.missing (hnone.mpr hother) rfl
      intro role h
      unfold Gate.Presents at h
      rw [hmode] at h
      obtain ⟨token, claims, subject, hvalue, -⟩ := h
      exact hother token hvalue

theorem authenticate_verdict (gate : Gate) (request : HttpRequest) :
    Verdict gate request (gate.authenticate request) := by
  unfold Gate.authenticate
  cases hmode : gate.authMode with
  | apikey => exact authApiKey_verdict hmode
  | jwt => exact authJwt_verdict hmode

end Credentials

/-! ## One request -/

section Requests

variable {σ : Type} {gate : Gate} {routes : Routes σ} {arrival : Arrival} {s : σ}

/-- The authentication and the router either call a handler or answer by themselves. -/
theorem auth_router_cases (gate : Gate) (routes : Routes σ) (arrival : Arrival)
    (requestId : Option String) (s : σ) :
    (MayCall gate arrival.request ∧ ∃ handler principal,
      auth gate (router routes) { arrival, requestId } s =
        called handler { arrival, requestId, principal } s ∧
      (principal = none ∧ arrival.request.isOpen = true ∨
        ∃ p, principal = some p ∧ gate.Presents arrival.request p.role) ∧
      (arrival.request.isAdminRoute = true → ∃ p, principal = some p ∧ p.role = .admin)) ∨
    ¬ MayCall gate arrival.request ∧ ∃ e : AppError,
      auth gate (router routes) { arrival, requestId } s = (s, [], some e.response) ∧
      Refused gate arrival.request e.statusCode := by
  unfold auth MayCall
  cases hopen : arrival.request.isOpen with
  | true =>
      cases hadmin : arrival.request.isAdminRoute with
      | true =>
          refine .inr ⟨by simp, authenticationError "Authentication required.", ?_, ?_⟩
          · simp [router, hadmin, requireAdmin]
          · exact .inl ⟨.inl hopen, rfl⟩
      | false =>
          refine .inl ⟨by simp, routes.other, none, ?_, .inl ⟨rfl, rfl⟩, by simp⟩
          simp [router, hadmin]
  | false =>
      have hverdict := authenticate_verdict gate arrival.request
      generalize gate.authenticate arrival.request = result at hverdict
      cases hverdict with
      | @missing e hnone hstatus hnobody =>
          refine .inr ⟨?_, e, rfl, .inl ⟨.inr hnone, hstatus⟩⟩
          simp [hnobody]
      | @wrong e hshown hstatus hnobody =>
          refine .inr ⟨?_, e, rfl, .inr ⟨hopen, hshown, hstatus⟩⟩
          simp [hnobody]
      | @caller principal hshown hrole =>
          cases hadmin : arrival.request.isAdminRoute with
          | false =>
              refine .inl ⟨?_, routes.other, some principal, ?_, ?_, by simp⟩
              · exact .inr ⟨principal.role, (hrole _).mpr rfl⟩
              · simp [router, hadmin]
              · exact .inr ⟨principal, rfl, (hrole _).mpr rfl⟩
          | true =>
              cases hprincipal : principal.role with
              | admin =>
                  refine .inl ⟨⟨rfl, (hrole _).mpr hprincipal⟩, routes.admin, some principal,
                    ?_, ?_, fun _ => ⟨principal, rfl, hprincipal⟩⟩
                  · simp [router, hadmin, requireAdmin, hprincipal]
                  · exact .inr ⟨principal, rfl, (hrole _).mpr rfl⟩
              | user =>
                  refine .inr ⟨?_, authorizationError "Admin privileges required.", ?_, ?_⟩
                  · simp [hrole, hprincipal]
                  · simp [router, hadmin, requireAdmin, hprincipal]
                  · exact .inr ⟨hopen, hshown, rfl⟩

/-- The layers around the authentication log the request and stamp the response. -/
theorem insideCors_eq (gate : Gate) (routes : Routes σ) (arrival : Arrival) (s : σ)
    {path : String} (hpath : arrival.request.urlPath = some path) :
    let inner := auth gate (router routes) { arrival, requestId := some arrival.requestId } s
    insideCors gate routes { arrival } s =
      (inner.1,
        inner.2.1 ++
          (if skipPaths.contains path then []
          else [.logged arrival.request.method path
            ((inner.2.2.map HttpResponse.status).getD 500)]),
        inner.2.2.map fun response =>
          (response.stamp gate.securityHeaders).withHeader "x-request-id" arrival.requestId) := by
  intro inner
  unfold insideCors requestIds accessLogging securityHeaders
  have hstatus : ((inner.2.2.map (HttpResponse.stamp gate.securityHeaders)).map
      HttpResponse.status).getD 500 = (inner.2.2.map HttpResponse.status).getD 500 := by
    rw [Option.map_map]
    rfl
  have hboth : (inner.2.2.map (HttpResponse.stamp gate.securityHeaders)).map
      (HttpResponse.withHeader "x-request-id" arrival.requestId) = inner.2.2.map fun response =>
        (response.stamp gate.securityHeaders).withHeader "x-request-id" arrival.requestId :=
    Option.map_map ..
  simp only [hpath]
  by_cases hskip : skipPaths.contains path = true
  · simp only [hskip, if_true, List.append_nil]
    exact Prod.ext rfl (Prod.ext rfl hboth)
  · simp only [hskip, if_false, Bool.false_eq_true]
    rw [← hstatus]
    exact Prod.ext rfl (Prod.ext rfl hboth)

/-- A response has the id of its request and every security header. -/
theorem stamped_headers (gate : Gate) (id : String) (response : HttpResponse) :
    header "x-request-id"
        ((response.stamp gate.securityHeaders).withHeader "x-request-id" id).headers = some id ∧
      ∀ name, (header name gate.securityHeaders).isSome → (header name
        ((response.stamp gate.securityHeaders).withHeader "x-request-id" id).headers).isSome := by
  have hid : header "x-request-id" ((response.stamp gate.securityHeaders).withHeader
      "x-request-id" id).headers = some id := header_setHeader_self
  refine ⟨hid, fun name hname => ?_⟩
  by_cases hsame : name = "x-request-id"
  · rw [hsame, hid]
    rfl
  · have hstamp : header name ((response.stamp gate.securityHeaders).withHeader
        "x-request-id" id).headers =
        (header name response.headers).or (header name gate.securityHeaders) :=
      (header_setHeader_of_ne hsame).trans (header_foldl _)
    rw [hstamp, Option.isSome_or, hname, Bool.or_true]

/-- What the CORS middleware sets takes neither the id nor a security header away. -/
theorem cors_headers (gate : Gate) {id : String} {response : HttpResponse}
    (hid : header "x-request-id" response.headers = some id)
    (hsecurity : ∀ name, (header name gate.securityHeaders).isSome →
      (header name response.headers).isSome) (entries : List (String × String))
    (hcors : ∀ entry ∈ entries, entry.1 ∈ corsHeaders) :
    header "x-request-id" (response.withHeaders entries).headers = some id ∧
      ∀ name, (header name gate.securityHeaders).isSome →
        (header name (response.withHeaders entries).headers).isSome := by
  constructor
  · rw [header_withHeaders_of_ne, hid]
    intro entry hentry heq
    have hin : "x-request-id" ∈ corsHeaders := heq ▸ hcors entry hentry
    exact absurd hin (by decide)
  · intro name hname
    exact isSome_header_withHeaders (hsecurity name hname)

/-- What the outer layers make of what the inner ones have answered. -/
structure Wraps (gate : Gate) (arrival : Arrival) (path : String) (events : List GateEvent)
    (response : Option HttpResponse) (served : Served) : Prop where
  arrived : served.arrival = arrival
  crashed : served.crashed = response.isNone
  status : served.response.status = (response.map HttpResponse.status).getD 500
  called : served.events.filterMap GateEvent.scope? = events.filterMap GateEvent.scope?
  stamped : served.crashed = false →
    header "x-request-id" served.response.headers = some arrival.requestId ∧
      ∀ name, (header name gate.securityHeaders).isSome →
        (header name served.response.headers).isSome
  logged : served.events.filterMap GateEvent.entry? =
    events.filterMap GateEvent.entry? ++
      if skipPaths.contains path then []
      else [(arrival.request.method, path, served.response.status)]

/-- What becomes of a response on its way out. -/
def Gate.finish (gate : Gate) (arrival : Arrival) (response : HttpResponse) : HttpResponse :=
  let stamped := (response.stamp gate.securityHeaders).withHeader "x-request-id" arrival.requestId
  if arrival.request.hasOrigin then
    stamped.withHeaders (gate.cors.sets arrival.request stamped)
  else stamped

theorem finish_headers (gate : Gate) (arrival : Arrival) (response : HttpResponse) :
    header "x-request-id" (gate.finish arrival response).headers = some arrival.requestId ∧
      ∀ name, (header name gate.securityHeaders).isSome →
        (header name (gate.finish arrival response).headers).isSome := by
  obtain ⟨hid, hsecurity⟩ := stamped_headers gate arrival.requestId response
  unfold Gate.finish
  dsimp only
  split
  · exact cors_headers gate hid hsecurity _ (gate.cors.sets_cors _ _)
  · exact ⟨hid, hsecurity⟩

theorem status_finish (gate : Gate) (arrival : Arrival) (response : HttpResponse) :
    (gate.finish arrival response).status = response.status := by
  unfold Gate.finish
  dsimp only
  split
  · exact status_withHeaders
  · rfl

theorem gateway_eq (gate : Gate) (routes : Routes σ) (arrival : Arrival) (s : σ)
    (hpreflight : arrival.request.isPreflight = false) {path : String}
    (hpath : arrival.request.urlPath = some path) :
    let inner := auth gate (router routes) { arrival, requestId := some arrival.requestId } s
    gateway gate routes { arrival } s =
      (inner.1,
        inner.2.1 ++
          (if skipPaths.contains path then []
          else [.logged arrival.request.method path
            ((inner.2.2.map HttpResponse.status).getD 500)]),
        inner.2.2.map (gate.finish arrival)) := by
  intro inner
  unfold gateway cors
  rw [insideCors_eq gate routes arrival s hpath]
  simp only [hpreflight, Bool.false_eq_true, if_false]
  by_cases horigin : arrival.request.hasOrigin = true
  · simp only [horigin, if_true, Option.map_map]
    have hfinish : gate.finish arrival = (fun response : HttpResponse =>
        response.withHeaders (gate.cors.sets arrival.request response)) ∘ fun response =>
          (response.stamp gate.securityHeaders).withHeader "x-request-id" arrival.requestId := by
      funext response
      simp [Gate.finish, horigin]
    rw [hfinish]
  · simp only [horigin, if_false, Bool.false_eq_true]
    have hfinish : gate.finish arrival = fun response =>
        (response.stamp gate.securityHeaders).withHeader "x-request-id" arrival.requestId := by
      funext response
      simp [Gate.finish, horigin]
    rw [hfinish]

theorem serve_wraps (gate : Gate) (routes : Routes σ) (arrival : Arrival) (s : σ)
    (hpreflight : arrival.request.isPreflight = false) {path : String}
    (hpath : arrival.request.urlPath = some path) :
    let inner := auth gate (router routes) { arrival, requestId := some arrival.requestId } s
    (serve gate routes arrival s).1 = inner.1 ∧
      Wraps gate arrival path inner.2.1 inner.2.2 (serve gate routes arrival s).2 := by
  intro inner
  have hgateway := gateway_eq gate routes arrival s hpreflight hpath
  unfold serve
  rw [hgateway]
  have hstatus : ((inner.2.2.map (gate.finish arrival)).getD unhandledResponse).status =
      (inner.2.2.map HttpResponse.status).getD 500 := by
    cases inner.2.2 with
    | none => rfl
    | some response => exact status_finish gate arrival response
  refine ⟨rfl, rfl, Option.isNone_map, hstatus, ?_, ?_, ?_⟩
  · show (inner.2.1 ++ _).filterMap GateEvent.scope? = _
    rw [List.filterMap_append]
    split
    · exact List.append_nil _
    · exact List.append_nil _
  · intro hreturned
    have hsome : inner.2.2.isNone = false := Option.isNone_map.symm.trans hreturned
    show header _ ((inner.2.2.map _).getD unhandledResponse).headers = _ ∧
      ∀ name, _ → (header name ((inner.2.2.map _).getD unhandledResponse).headers).isSome
    cases hresponse : inner.2.2 with
    | none =>
        rw [hresponse] at hsome
        cases hsome
    | some response => exact finish_headers gate arrival response
  · show (inner.2.1 ++ _).filterMap GateEvent.entry? = _
    rw [List.filterMap_append]
    congr 1
    split
    · rfl
    · show [_] = [_]
      rw [hstatus]

/-- A preflight is answered outside the other layers. -/
theorem serve_preflight (gate : Gate) (routes : Routes σ) (arrival : Arrival) (s : σ)
    (hpreflight : arrival.request.isPreflight = true) :
    serve gate routes arrival s =
      (s, ⟨arrival, [], false, gate.cors.preflight arrival.request⟩) := by
  simp [serve, gateway, cors, hpreflight]

theorem serve_unread (gate : Gate) (routes : Routes σ) (arrival : Arrival) (s : σ)
    (hpreflight : arrival.request.isPreflight = false) (hpath : arrival.request.urlPath = none) :
    serve gate routes arrival s = (s, ⟨arrival, [], true, unhandledResponse⟩) := by
  simp [serve, gateway, cors, insideCors, requestIds, accessLogging, hpreflight, hpath]

/-- Where a handler is called and `request.url` shows the routed path, a route that is not
public has a caller. -/
theorem caller_of_routed {principal : Option Principal}
    (hcaller : principal = none ∧ arrival.request.isOpen = true ∨
      ∃ p, principal = some p ∧ gate.Presents arrival.request p.role)
    (hpath : arrival.request.urlPath = some arrival.request.path)
    (hpublic : arrival.request.isPublic = false) :
    ∃ p, principal = some p ∧ gate.Presents arrival.request p.role := by
  rcases hcaller with ⟨-, hopen⟩ | hshown
  · have hsame : arrival.request.isOpen = arrival.request.isPublic := by
      unfold HttpRequest.isOpen HttpRequest.isPublic
      rw [hpath]
      rfl
    rw [hsame, hpublic] at hopen
    cases hopen
  · exact hshown

/-- What is asked of one request: it is answered as it should be, and where it is turned away
the application stays as it is. -/
def ServesWell (gate : Gate) (routes : Routes σ) (arrival : Arrival) (s : σ) : Prop :=
  Answers gate (serve gate routes arrival s).2 ∧
    (serve gate routes arrival s).2.arrival = arrival ∧
    (¬ Admitted gate arrival.request → (serve gate routes arrival s).1 = s)

theorem preflight_servesWell (gate : Gate) (routes : Routes σ) (arrival : Arrival) (s : σ)
    (hpreflight : arrival.request.isPreflight = true) : ServesWell gate routes arrival s := by
  unfold ServesWell
  rw [serve_preflight gate routes arrival s hpreflight]
  have hno : arrival.request.isPreflight ≠ false := by simp [hpreflight]
  refine ⟨?_, rfl, fun _ => rfl⟩
  constructor
  · exact .inr ⟨rfl, fun h => hno h.1, fun h => absurd h hno⟩
  · intro _
    exact ⟨rfl, rfl, rfl⟩
  · exact fun h => absurd h hno
  · exact fun h => absurd h hno
  · exact fun h => absurd h hno

theorem unread_servesWell (gate : Gate) (routes : Routes σ) (arrival : Arrival) (s : σ)
    (hpreflight : arrival.request.isPreflight = false) (hpath : arrival.request.urlPath = none) :
    ServesWell gate routes arrival s := by
  unfold ServesWell
  rw [serve_unread gate routes arrival s hpreflight hpath]
  have hunread : ¬ arrival.request.urlPath.isSome = true := by simp [hpath]
  refine ⟨?_, rfl, fun _ => rfl⟩
  constructor
  · exact .inr ⟨rfl, fun h => hunread h.2.1, fun _ h => absurd h hunread⟩
  · intro h
    rw [hpreflight] at h
    cases h
  · exact fun _ _ => ⟨rfl, rfl, rfl⟩
  · intro _ h
    cases h
  · intro _ path h
    rw [hpath] at h
    cases h

theorem read_servesWell (gate : Gate) (routes : Routes σ) (arrival : Arrival) (s : σ)
    (hpreflight : arrival.request.isPreflight = false) {path : String}
    (hpath : arrival.request.urlPath = some path) : ServesWell gate routes arrival s := by
  unfold ServesWell
  obtain ⟨hstate, hwraps⟩ := serve_wraps gate routes arrival s hpreflight hpath
  generalize serve gate routes arrival s = result at hstate hwraps
  obtain ⟨t, served⟩ := result
  obtain rfl : served.arrival = arrival := hwraps.arrived
  have hread : served.arrival.request.urlPath.isSome = true := by simp [hpath]
  have hpreflight' : ¬ served.arrival.request.isPreflight = true := by simp [hpreflight]
  have hunread : ¬ served.arrival.request.urlPath = none := by simp [hpath]
  rcases auth_router_cases gate routes served.arrival (some served.arrival.requestId) s with
    ⟨hmay, handler, principal, hinner, hcaller, hadmin⟩ | ⟨hnot, e, hinner, hrefused⟩
  · rw [hinner] at hwraps
    refine ⟨?_, rfl, fun hno => absurd ⟨hpreflight, hread, hmay⟩ hno⟩
    constructor
    · exact .inl ⟨⟨_, hwraps.called, rfl, rfl, hcaller, caller_of_routed hcaller, hadmin⟩,
        hpreflight, hread, hmay⟩
    · exact fun h => absurd h hpreflight'
    · exact fun _ h => absurd h hunread
    · exact fun _ => hwraps.stamped
    · intro _ path' hpath'
      rw [hpath] at hpath'
      cases hpath'
      exact hwraps.logged
  · rw [hinner] at hwraps hstate
    refine ⟨?_, rfl, fun _ => hstate⟩
    constructor
    · refine .inr ⟨hwraps.called, fun h => hnot h.2.2, fun _ _ => ⟨hwraps.crashed, ?_⟩⟩
      rw [hwraps.status]
      exact hrefused
    · exact fun h => absurd h hpreflight'
    · exact fun _ h => absurd h hunread
    · exact fun _ => hwraps.stamped
    · intro _ path' hpath'
      rw [hpath] at hpath'
      cases hpath'
      exact hwraps.logged

theorem serve_spec (gate : Gate) (routes : Routes σ) (arrival : Arrival) (s : σ) :
    ServesWell gate routes arrival s := by
  cases hpreflight : arrival.request.isPreflight with
  | true => exact preflight_servesWell gate routes arrival s hpreflight
  | false =>
      cases hpath : arrival.request.urlPath with
      | none => exact unread_servesWell gate routes arrival s hpreflight hpath
      | some path => exact read_servesWell gate routes arrival s hpreflight hpath

theorem gatewaySystem_step {t : σ} {out : List Served}
    (h : (gatewaySystem gate routes).step s arrival = some (t, out)) :
    t = (serve gate routes arrival s).1 ∧ out = [(serve gate routes arrival s).2] :=
  Prod.mk.inj (Option.some.inj h.symm)

end Requests

/-- The digests of the two keys of `sampleGate`. -/
def sampleDigest (key : String) : String :=
  if key = "user" then "04f8996da763b7a969b1028ee3007569eaf3a635486ddab211d512c85b9df8fb"
  else if key = "admin" then "8c6976e5b5410415bde908bd4dee15dfb167a9c873fc4bb8a81f6f2ab448a918"
  else ""

/-- No origin is allowed. -/
def closedCors : CorsMiddleware where
  preflight _ := ⟨400, [("vary", "Origin")], .str "Disallowed CORS origin"⟩
  sets _ _ := [("access-control-expose-headers", "X-Request-ID, X-Thread-Id")]
  sets_cors _ _ _ h := by
    rw [List.mem_singleton.mp h]
    decide

def sampleGate : Gate where
  authMode := .apikey
  apiKey := "user"
  adminApiKey := "admin"
  sha256 := sampleDigest
  decodeToken _ := none
  cors := closedCors

/-- Every handler counts its calls. -/
def countingRoutes : Routes ℕ where
  admin _ n := (n + 1, .ok ⟨200, [], .null⟩)
  other _ n := (n + 1, .ok ⟨200, [], .null⟩)

end Lour.Gateway
