import OrasGo.Auth.Cache
import OrasGo.Base.History
import OrasGo.Remote.Upload

/-! `auth.Client`: how a request to a registry is authenticated, with the requests
that the HTTP client sends on the way. -/

namespace OrasGo.Auth
open Interleaving Remote

structure Credential where
  username : String := ""
  password : String := ""
  refreshToken : String := ""
  accessToken : String := ""
  deriving DecidableEq, Repr

/-- `EmptyCredential`. -/
def emptyCredential : Credential := {}

/-- The body of a request. `once` has no `GetBody`, and that of `failing` fails. -/
inductive Body
  | none
  | once
  | failing (err : Error)
  | rewindable
  | form (fields : List (String × String))
  deriving DecidableEq

structure Request where
  method : String
  url : URL
  authorization : String := ""
  body : Body := .none
  deriving DecidableEq

/-- What a server answers, as far as the client reads it. -/
structure ServerReply where
  status : Nat
  location : String := ""
  challenge : String := ""
  body : String := ""
  deriving DecidableEq

/-- A reply with the request it answers. -/
structure Response extends ServerReply where
  request : Request

/-- Why a request is sent: it is the caller's own, one for a token, or one to which
a redirect has led. -/
inductive Hop
  | registry
  | realm
  | redirect
  deriving DecidableEq

/-- The requests on the wire, and the calls of the cache. `joinFetch` is the part of
`Cache.Set` that decides who fetches the token. -/
inductive ClientOp
  | roundTrip (hop : Hop) (req : Request)
  | getScheme (registry : String)
  | getToken (registry : String) (scheme : Scheme) (key : String)
  | joinFetch (registry : String) (scheme : Scheme) (key : String)
  | setToken (registry : String) (scheme : Scheme) (key token : String)
  deriving DecidableEq

/-- `joinFetch` answers with what another call has fetched, if there is one. -/
@[reducible] def ClientAns : ClientOp → Type
  | .roundTrip _ _ => Except Error ServerReply
  | .getScheme _ => Option Scheme
  | .getToken _ _ _ => Option String
  | .joinFetch _ _ _ => Option (Except Error String)
  | .setToken _ _ _ _ => Unit

instance : (op : ClientOp) → DecidableEq (ClientAns op)
  | .roundTrip _ _ => inferInstanceAs (DecidableEq (Except Error ServerReply))
  | .getScheme _ => inferInstanceAs (DecidableEq (Option Scheme))
  | .getToken _ _ _ => inferInstanceAs (DecidableEq (Option String))
  | .joinFetch _ _ _ => inferInstanceAs (DecidableEq (Option (Except Error String)))
  | .setToken _ _ _ _ => inferInstanceAs (DecidableEq Unit)

abbrev ClientCode := Prog ClientOp ClientAns

/-- The configuration of a client, and what the standard library computes for it.
`keepsAuthorization` is the decision of the HTTP client whether the header goes along
from the first URL to another one, and `redirects` how many redirects it follows. -/
structure Client where
  credential : String → Except Error Credential
  clientID : String := ""
  forceAttemptOAuth2 : Bool := false
  redirects : Nat := 9
  parser : URLParser
  keepsAuthorization : URL → URL → Bool
  parseChallenge : String → Scheme × (String → String)
  scopesForHost : String → List String
  cleanScopes : List String → List String
  addQuery : String → String → List String → String
  encodeToString : String → String
  decodeToken : String → Except Error String
  decodeTokens : String → Except Error (String × String)
  errorResponse : Response → Error
  quote : URL → String

def defaultClientID : String := "oras-go"

namespace Client
variable (c : Client)

def basicAuth (username password : String) : String := c.encodeToString (username ++ ":" ++ password)

/-- The request that follows a redirect, if the reply is one that is followed. The body
is that of the first request; a header that was dropped stays dropped. -/
def redirect (initial req : Request) (reply : ServerReply) : Option (Except Error Request) :=
  let keepsBody := reply.status = 307 ∨ reply.status = 308
  if reply.location = "" ∨ ¬ (keepsBody ∨ reply.status = 301 ∨ reply.status = 302 ∨ reply.status = 303) then none
  else if keepsBody ∧ initial.body = .once then none
  else some do
    let location ← c.parser.parse reply.location
    let url := req.url.resolveReference c.parser.resolvePath location
    let authorization := if c.keepsAuthorization initial.url url then req.authorization else ""
    if keepsBody then
      match initial.body with
      | .failing err => throw err
      | body => return { method := req.method, url, authorization, body }
    else
      let method := if req.method = "GET" ∨ req.method = "HEAD" then req.method else "GET"
      return { method, url, authorization }

/-- One request of the HTTP client: the result, or the request to go on with. -/
def exchange (initial : Request) (hop : Hop) (req : Request) : ClientCode (Except Error Response ⊕ Request) :=
  match req.url.sendError with
  | some err => return .inl (.error err)
  | none => do
    match ← Prog.perform (ClientOp.roundTrip hop req) with
    | .error err => return .inl (.error err)
    | .ok reply =>
      match c.redirect initial req reply with
      | none => return .inl (.ok { toServerReply := reply, request := req })
      | some (.error err) => return .inl (.error err)
      | some (.ok next) => return .inr next

/-- `http.Client.Do`, which may follow so many more redirects. -/
def follow (initial : Request) : Nat → Hop → Request → ClientCode (Except Error Response)
  | 0, hop, req => do
    match ← c.exchange initial hop req with
    | .inl result => return result
    | .inr _ => return .error (.text "stopped after 10 redirects")
  | more + 1, hop, req => do
    match ← c.exchange initial hop req with
    | .inl result => return result
    | .inr next => follow initial more .redirect next

/-- `Client.send`. -/
def send (hop : Hop) (req : Request) : ClientCode (Except Error Response) := c.follow req c.redirects hop req

/-- The beginning of an error message about a request. -/
def about (req : Request) : String := req.method ++ " " ++ c.quote req.url

/-- `rewindRequestBody`. -/
def rewindRequestBody (req : Request) : Option Error :=
  match req.body with
  | .once => some (.text (c.about req ++ ": request body is not rewindable"))
  | .failing err => some (.wrap (c.about req ++ ": failed to get request body") err)
  | _ => none

/-- `fetchBasicAuth`. -/
def fetchBasicAuth (registry : String) : Except Error String :=
  match c.credential registry with
  | .error err => .error (.wrap "failed to resolve credential" err)
  | .ok cred =>
    if cred = emptyCredential then .error (.text "basic credential not found")
    else if cred.username = "" ∨ cred.password = "" then .error (.text "missing username or password for basic auth")
    else .ok (c.basicAuth cred.username cred.password)

/-- `fetchDistributionToken`. -/
def fetchDistributionToken (realm service : String) (scopes : List String) (username password : String) :
    ClientCode (Except Error String) :=
  match c.parser.parse realm with
  | .error err => return .error err
  | .ok url => do
    let authorization := if username ≠ "" ∨ password ≠ "" then "Basic " ++ c.basicAuth username password else ""
    match ← c.send .realm
        { method := "GET", url := { url with rawQuery := c.addQuery url.rawQuery service scopes }, authorization } with
    | .error err => return .error err
    | .ok resp =>
      if resp.status ≠ 200 then return .error (c.errorResponse resp)
      else match c.decodeTokens resp.body with
      | .error err => return .error (.wrap (c.about resp.request ++ ": failed to decode response") err)
      | .ok (token, accessToken) =>
        if accessToken ≠ "" then return .ok accessToken
        else if token ≠ "" then return .ok token
        else return .error (.text (c.about resp.request ++ ": empty token returned"))

/-- The form of `fetchOAuth2Token`. -/
def oauth2Form (service : String) (scopes : List String) (cred : Credential) : Except Error (List (String × String)) :=
  let rest := [("service", service), ("client_id", if c.clientID = "" then defaultClientID else c.clientID)] ++
    if scopes = [] then [] else [("scope", " ".intercalate scopes)]
  if cred.refreshToken ≠ "" then
    .ok ([("grant_type", "refresh_token"), ("refresh_token", cred.refreshToken)] ++ rest)
  else if cred.username ≠ "" ∧ cred.password ≠ "" then
    .ok ([("grant_type", "password"), ("username", cred.username), ("password", cred.password)] ++ rest)
  else .error (.text "missing username or password for bearer auth")

/-- `fetchOAuth2Token`. -/
def fetchOAuth2Token (realm service : String) (scopes : List String) (cred : Credential) :
    ClientCode (Except Error String) :=
  match c.oauth2Form service scopes cred with
  | .error err => return .error err
  | .ok fields =>
    match c.parser.parse realm with
    | .error err => return .error err
    | .ok url => do
      match ← c.send .realm { method := "POST", url, body := .form fields } with
      | .error err => return .error err
      | .ok resp =>
        if resp.status ≠ 200 then return .error (c.errorResponse resp)
        else match c.decodeToken resp.body with
        | .error err => return .error (.wrap (c.about resp.request ++ ": failed to decode response") err)
        | .ok accessToken =>
          if accessToken ≠ "" then return .ok accessToken
          else return .error (.text (c.about resp.request ++ ": empty token returned"))

/-- `fetchBearerToken`. -/
def fetchBearerToken (registry realm service : String) (scopes : List String) : ClientCode (Except Error String) :=
  match c.credential registry with
  | .error err => return .error err
  | .ok cred =>
    if cred.accessToken ≠ "" then return .ok cred.accessToken
    else if cred = emptyCredential ∨ (cred.refreshToken = "" ∧ c.forceAttemptOAuth2 = false) then
      c.fetchDistributionToken realm service scopes cred.username cred.password
    else c.fetchOAuth2Token realm service scopes cred

/-- `Cache.Set`: the token that another call has fetched, or the one that `fetch` gets. -/
def cacheSet (registry : String) (scheme : Scheme) (key : String) (fetch : ClientCode (Except Error String)) :
    ClientCode (Except Error String) := do
  match ← Prog.perform (ClientOp.joinFetch registry scheme key) with
  | some result => return result
  | none =>
    match ← fetch with
    | .error err => return .error err
    | .ok token =>
      Prog.perform (ClientOp.setToken registry scheme key token)
      return .ok token

/-- The header from the cache, and the key that was tried. -/
def cachedAuthorization (host : String) : ClientCode (String × String) := do
  match ← Prog.perform (ClientOp.getScheme host) with
  | some .basic =>
    match ← Prog.perform (ClientOp.getToken host .basic "") with
    | some token => return ("Basic " ++ token, "")
    | none => return ("", "")
  | some .bearer =>
    let attemptedKey := " ".intercalate (c.scopesForHost host)
    match ← Prog.perform (ClientOp.getToken host .bearer attemptedKey) with
    | some token => return ("Bearer " ++ token, attemptedKey)
    | none => return ("", attemptedKey)
  | _ => return ("", "")

/-- The original request once more, with this header. -/
def resend (originalReq : Request) (authorization : String) : ClientCode (Except Error Response) :=
  let req := { originalReq with authorization }
  match c.rewindRequestBody req with
  | some err => return .error err
  | none => c.send .registry req

/-- The second look into the cache; there is no result if the request has to be
authenticated with the credential. -/
def retryCached (host : String) (originalReq : Request) (key : String) : ClientCode (Option (Except Error Response)) := do
  match ← Prog.perform (ClientOp.getToken host .bearer key) with
  | none => return none
  | some token =>
    match ← c.resend originalReq ("Bearer " ++ token) with
    | .error err => return some (.error err)
    | .ok resp => if resp.status ≠ 401 then return some (.ok resp) else return none

/-- The scopes that a challenge asks for, with those of the caller. -/
def challengedScopes (host scope : String) : List String :=
  if scope ≠ "" then c.cleanScopes (c.scopesForHost host ++ scope.splitOn " ") else c.scopesForHost host

/-- The attempt with the credential: a token for the realm, and the request with it. -/
def authenticate (host : String) (originalReq : Request) (scopes : List String) (params : String → String)
    (resp : Response) : ClientCode (Except Error Response) := do
  match ← cacheSet host .bearer (" ".intercalate scopes)
      (c.fetchBearerToken host (params "realm") (params "service") scopes) with
  | .error err => return .error (.wrap (c.about resp.request) err)
  | .ok token => c.resend originalReq ("Bearer " ++ token)

/-- The answer to a Bearer challenge. -/
def answerBearer (host : String) (originalReq : Request) (attemptedKey : String) (params : String → String)
    (resp : Response) : ClientCode (Except Error Response) :=
  let scopes := c.challengedScopes host (params "scope")
  let key := " ".intercalate scopes
  if key ≠ attemptedKey then do
    match ← c.retryCached host originalReq key with
    | some result => return result
    | none => c.authenticate host originalReq scopes params resp
  else c.authenticate host originalReq scopes params resp

/-- The answer to a Basic challenge. -/
def answerBasic (host : String) (originalReq : Request) (resp : Response) : ClientCode (Except Error Response) := do
  match ← cacheSet host .basic "" (return c.fetchBasicAuth host) with
  | .error err => return .error (.wrap (c.about resp.request) err)
  | .ok token => c.resend originalReq ("Basic " ++ token)

/-- `Client.Do`. `host` is the `Host` of the request. -/
def doRequest (host : String) (originalReq : Request) : ClientCode (Except Error Response) := do
  if originalReq.authorization ≠ "" then c.send .registry originalReq
  else
    let attempt ← c.cachedAuthorization host
    match ← c.send .registry { originalReq with authorization := attempt.1 } with
    | .error err => return .error err
    | .ok resp =>
      if resp.status ≠ 401 then return .ok resp
      else match c.parseChallenge resp.challenge with
      | (.basic, _) => c.answerBasic host originalReq resp
      | (.bearer, params) => c.answerBearer host originalReq attempt.2 params resp
      | _ => return .ok resp

end Client

end OrasGo.Auth
