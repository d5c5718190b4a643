import OrasGo.Auth.Client

/-! Where `Client.Do` sends the secrets of a credential. -/

namespace OrasGo.Auth
open Interleaving Remote URL

abbrev ClientRun := List (Exchange ClientOp ClientAns)

/-- The request was sent and answered with the reply. -/
def Replied (past : ClientRun) (req : Request) (reply : ServerReply) : Prop :=
  ∃ hop, (⟨.roundTrip hop req, .ok reply⟩ : Exchange ClientOp ClientAns) ∈ past

namespace Client
variable (c : Client)

/-- The reply is a Bearer challenge with this realm. -/
def Challenges (reply : ServerReply) (realm : String) : Prop :=
  reply.status = 401 ∧ ∃ params, c.parseChallenge reply.challenge = (.bearer, params) ∧ params "realm" = realm

/-- The URL is the realm of a Bearer challenge, up to the query that the client adds. -/
def Names (reply : ServerReply) (u : URL) : Prop :=
  ∃ realm url, c.Challenges reply realm ∧ c.parser.parse realm = .ok url ∧ u = { url with rawQuery := u.rawQuery }

/-- The request contains the password, the access token or the refresh token. -/
def Carries (cred : Credential) (req : Request) : Prop :=
  cred.password ≠ "" ∧ req.authorization = "Basic " ++ c.basicAuth cred.username cred.password ∨
  cred.accessToken ≠ "" ∧ req.authorization = "Bearer " ++ cred.accessToken ∨
  ∃ fields, req.body = .form fields ∧
    (cred.refreshToken ≠ "" ∧ ("refresh_token", cred.refreshToken) ∈ fields ∨
      cred.password ≠ "" ∧ ("password", cred.password) ∈ fields)

/-- A secret of the registry may go to the URL, in view of the replies so far. -/
def Allowed (own : URL) (past : ClientRun) (u : URL) : Prop :=
  SameOrigin own u ∨
    (∃ req reply, Replied past req reply ∧ SameOrigin own req.url ∧ c.Names reply u) ∧ ¬ Downgrades own u

/-- Secrets go only to the registry's own origin, or to a realm that it has named. -/
def Contained (own : URL) (cred : Credential) (run : ClientRun) : Prop :=
  ∀ before hop req answer after, run = before ++ ⟨.roundTrip hop req, answer⟩ :: after →
    c.Carries cred req → c.Allowed own before req.url

/-- The replies of the past lead from the first request to another one. -/
inductive Chain (past : ClientRun) (initial : Request) : Hop → Request → Prop
  | first {hop : Hop} (sent : hop ≠ .redirect) : Chain past initial hop initial
  | next {hop : Hop} {req next : Request} {reply : ServerReply} (before : Chain past initial hop req)
    (replied : ⟨.roundTrip hop req, .ok reply⟩ ∈ past) (led : c.redirect initial req reply = some (.ok next)) :
    Chain past initial .redirect next

/-- The replies ask for no secret elsewhere. A realm out of the registry's own origin is named by
that origin only, and not in the clear if the registry is not; a redirect that leaves the origin
takes neither the header nor a form along. -/
structure Loyal (own : URL) (run : ClientRun) : Prop where
  challenge : ∀ req reply u, Replied run req reply → c.Names reply u →
    SameOrigin own u ∨ SameOrigin own req.url ∧ ¬ Downgrades own u
  redirect : ∀ initial next, c.Chain run initial .redirect next →
    SameOrigin own next.url ∨ next.authorization = "" ∧ ∀ fields, next.body ≠ .form fields

/-- Why a request is sent, in view of the replies so far. -/
def Explained (original : Request) (past : ClientRun) : ClientOp → Prop
  | .roundTrip .registry req => req.url = original.url
  | .roundTrip .realm req => ∃ q reply, Replied past q reply ∧ c.Names reply req.url
  | .roundTrip .redirect req => ∃ initial, c.Chain past initial .redirect req
  | _ => True

end Client

theorem Replied.mono {past past' : ClientRun} {req : Request} {reply : ServerReply} (replied : Replied past req reply)
    (grown : past ⊆ past') : Replied past' req reply := by
  obtain ⟨hop, member⟩ := replied
  exact ⟨hop, grown member⟩

namespace Client
section Outline
variable {c : Client} {original : Request} {past : ClientRun}

/-- The past has grown, and a response is the reply to a request in it. -/
def Answered (past : ClientRun) (result : Except Error Response) (past' : ClientRun) : Prop :=
  past ⊆ past' ∧ ∀ resp, result = .ok resp → Replied past' resp.request resp.toServerReply

/-- Some server has challenged the client with this realm. -/
def Challenged (c : Client) (past : ClientRun) (realm : String) : Prop :=
  ∃ req reply, Replied past req reply ∧ c.Challenges reply realm

theorem Challenged.mono {past' : ClientRun} {realm : String} (challenged : c.Challenged past realm)
    (grown : past ⊆ past') : c.Challenged past' realm := by
  obtain ⟨req, reply, replied, challenges⟩ := challenged
  exact ⟨req, reply, replied.mono grown, challenges⟩

theorem Chain.mono {past' : ClientRun} {initial req : Request} {hop : Hop} (chain : c.Chain past initial hop req)
    (grown : past ⊆ past') : c.Chain past' initial hop req := by
  induction chain with
  | first sent => exact .first sent
  | next _ replied led ih => exact .next ih (grown replied) led

theorem perform_outline {op : ClientOp} (explained : c.Explained original past op) :
    wp (pastGhost (c.Explained original)) (Prog.perform op) (fun _ past' => past ⊆ past') past := by
  refine ⟨explained, fun answer past' moved => ?_⟩
  cases moved
  exact List.subset_append_left _ _

/-- After one request there is a response, or a redirect that explains the next one. -/
theorem exchange_outline {initial req : Request} {hop : Hop} (explained : c.Explained original past (.roundTrip hop req))
    (chain : c.Chain past initial hop req) :
    wp (pastGhost (c.Explained original)) (c.exchange initial hop req)
      (fun out past' => past ⊆ past' ∧ (∀ result, out = .inl result → Answered past result past') ∧
        ∀ next, out = .inr next → c.Chain past' initial .redirect next) past := by
  have failed {past' : ClientRun} (grown : past ⊆ past') (err : Error) : Answered past (.error err) past' :=
    ⟨grown, fun resp eq => by cases eq⟩
  rw [exchange]
  split
  · refine ⟨List.Subset.refl _, ?_, fun next eq => by cases eq⟩
    rintro _ ⟨⟩
    exact failed (List.Subset.refl _) _
  · rw [Prog.perform_bind]
    refine ⟨explained, fun answer past' moved => ?_⟩
    cases moved
    have grown : past ⊆ past ++ [⟨.roundTrip hop req, answer⟩] := List.subset_append_left _ _
    cases answer with
    | error err =>
      refine ⟨grown, ?_, fun next eq => by cases eq⟩
      rintro _ ⟨⟩
      exact failed grown err
    | ok reply =>
      have replied : (⟨.roundTrip hop req, .ok reply⟩ : Exchange ClientOp ClientAns) ∈
          past ++ [⟨.roundTrip hop req, .ok reply⟩] := List.mem_append_right _ List.mem_cons_self
      dsimp only
      split
      · refine ⟨grown, ?_, fun next eq => by cases eq⟩
        rintro _ ⟨⟩
        refine ⟨grown, ?_⟩
        rintro _ ⟨⟩
        exact ⟨hop, replied⟩
      · refine ⟨grown, ?_, fun next eq => by cases eq⟩
        rintro _ ⟨⟩
        exact failed grown _
      · rename_i led
        refine ⟨grown, (fun result eq => by cases eq), ?_⟩
        rintro _ ⟨⟩
        exact (chain.mono grown).next replied led

theorem follow_outline {initial req : Request} {more : Nat} {hop : Hop}
    (explained : c.Explained original past (.roundTrip hop req)) (chain : c.Chain past initial hop req) :
    wp (pastGhost (c.Explained original)) (c.follow initial more hop req) (Answered past) past := by
  induction more generalizing hop req past with
  | zero =>
    refine wp_seq _ (exchange_outline explained chain) ?_
    rintro (result | next) past' ⟨grown, answered, -⟩
    · exact answered result rfl
    · exact ⟨grown, fun resp eq => by cases eq⟩
  | succ more ih =>
    refine wp_seq _ (exchange_outline explained chain) ?_
    rintro (result | next) past' ⟨grown, answered, redirected⟩
    · exact answered result rfl
    · have led := redirected next rfl
      refine wp_mono _ (fun result later answered => ?_) (ih ⟨initial, led⟩ led)
      exact ⟨List.Subset.trans grown answered.1, answered.2⟩

theorem resend_outline (authorization : String) :
    wp (pastGhost (c.Explained original)) (c.resend original authorization) (Answered past) past := by
  rw [resend]
  split
  · exact ⟨List.Subset.refl _, fun resp eq => by cases eq⟩
  · exact follow_outline rfl (.first (by decide))

section

variable {realm : String} (challenged : c.Challenged past realm)
include challenged

/-- A token is requested only from a realm with which a server has challenged the client. -/
theorem realm_outline {url : URL} {req : Request} (parsed : c.parser.parse realm = .ok url)
    (named : req.url = { url with rawQuery := req.url.rawQuery }) :
    wp (pastGhost (c.Explained original)) (c.send .realm req) (Answered past) past := by
  obtain ⟨q, reply, replied, challenges⟩ := challenged
  exact follow_outline ⟨q, reply, replied, realm, url, challenges, parsed, named⟩ (.first (by decide))

theorem fetchDistributionToken_outline (service : String) (scopes : List String) (username password : String) :
    wp (pastGhost (c.Explained original)) (c.fetchDistributionToken realm service scopes username password)
      (fun _ past' => past ⊆ past') past := by
  rw [fetchDistributionToken]
  split
  · exact List.Subset.refl _
  · rename_i url parsed
    refine wp_seq _ (realm_outline challenged parsed rfl) ?_
    rintro (err | resp) past' ⟨grown, -⟩
    · exact grown
    · dsimp only
      repeat' split
      all_goals exact grown

theorem fetchOAuth2Token_outline (service : String) (scopes : List String) (cred : Credential) :
    wp (pastGhost (c.Explained original)) (c.fetchOAuth2Token realm service scopes cred)
      (fun _ past' => past ⊆ past') past := by
  rw [fetchOAuth2Token]
  split
  · exact List.Subset.refl _
  · split
    · exact List.Subset.refl _
    · rename_i url parsed
      refine wp_seq _ (realm_outline challenged parsed rfl) ?_
      rintro (err | resp) past' ⟨grown, -⟩
      · exact grown
      · dsimp only
        repeat' split
        all_goals exact grown

theorem fetchBearerToken_outline (registry service : String) (scopes : List String) :
    wp (pastGhost (c.Explained original)) (c.fetchBearerToken registry realm service scopes)
      (fun _ past' => past ⊆ past') past := by
  rw [fetchBearerToken]
  split
  · exact List.Subset.refl _
  · split
    · exact List.Subset.refl _
    · split
      · exact fetchDistributionToken_outline challenged service scopes _ _
      · exact fetchOAuth2Token_outline challenged service scopes _

end

theorem cacheSet_outline {fetch : ClientCode (Except Error String)} (registry : String) (scheme : Scheme) (key : String)
    (fetches : ∀ past', past ⊆ past' → wp (pastGhost (c.Explained original)) fetch (fun _ later => past' ⊆ later) past') :
    wp (pastGhost (c.Explained original)) (cacheSet registry scheme key fetch) (fun _ past' => past ⊆ past') past := by
  refine wp_seq _ (perform_outline trivial) ?_
  rintro (_ | result) joined grown
  · refine wp_seq _ (fetches joined grown) ?_
    rintro (err | token) fetched more
    · exact List.Subset.trans grown more
    · refine wp_seq _ (perform_outline trivial) fun _ stored later => ?_
      exact List.Subset.trans grown (List.Subset.trans more later)
  · exact grown

theorem cachedAuthorization_outline (host : String) :
    wp (pastGhost (c.Explained original)) (c.cachedAuthorization host) (fun _ past' => past ⊆ past') past := by
  refine wp_seq _ (perform_outline trivial) fun scheme looked grown => ?_
  split
  · refine wp_seq _ (perform_outline trivial) fun token past' more => ?_
    split <;> exact List.Subset.trans grown more
  · refine wp_seq _ (perform_outline trivial) fun token past' more => ?_
    split <;> exact List.Subset.trans grown more
  · exact grown

theorem retryCached_outline (host key : String) :
    wp (pastGhost (c.Explained original)) (c.retryCached host original key) (fun _ past' => past ⊆ past') past := by
  refine wp_seq _ (perform_outline trivial) fun token looked grown => ?_
  split
  · exact grown
  · refine wp_seq _ (resend_outline _) ?_
    rintro (err | resp) past' ⟨more, -⟩
    · exact List.Subset.trans grown more
    · dsimp only
      split <;> exact List.Subset.trans grown more

theorem authenticate_outline {params : String → String} (challenged : c.Challenged past (params "realm"))
    (host : String) (scopes : List String) (resp : Response) :
    wp (pastGhost (c.Explained original)) (c.authenticate host original scopes params resp) (fun _ _ => True) past := by
  refine wp_seq _ (cacheSet_outline host .bearer _ fun past' grown => ?_) ?_
  · exact fetchBearerToken_outline (challenged.mono grown) host _ _
  · rintro (err | token) past' -
    · trivial
    · exact wp_mono _ (fun _ _ _ => trivial) (resend_outline _)

theorem answerBearer_outline {params : String → String} (challenged : c.Challenged past (params "realm"))
    (host attemptedKey : String) (resp : Response) :
    wp (pastGhost (c.Explained original)) (c.answerBearer host original attemptedKey params resp)
      (fun _ _ => True) past := by
  rw [answerBearer]
  split
  · refine wp_seq _ (retryCached_outline host _) ?_
    rintro (_ | result) retried grown
    · exact authenticate_outline (challenged.mono grown) host _ resp
    · trivial
  · exact authenticate_outline challenged host _ resp

theorem answerBasic_outline (host : String) (resp : Response) :
    wp (pastGhost (c.Explained original)) (c.answerBasic host original resp) (fun _ _ => True) past := by
  refine wp_seq _ (cacheSet_outline host .basic "" fun past' _ => List.Subset.refl _) ?_
  rintro (err | token) past' -
  · trivial
  · exact wp_mono _ (fun _ _ _ => trivial) (resend_outline _)

/-- Every request that `Do` sends is explained by the replies before it. -/
theorem doRequest_outline (host : String) :
    wp (pastGhost (c.Explained original)) (c.doRequest host original) (fun _ _ => True) past := by
  rw [doRequest]
  split
  · exact wp_mono _ (fun _ _ _ => trivial) (follow_outline rfl (.first (by decide)))
  · refine wp_seq _ (cachedAuthorization_outline host) fun attempt looked _ => ?_
    refine wp_seq _ (follow_outline rfl (.first (by decide))) ?_
    rintro (err | resp) past' ⟨-, answered⟩
    · trivial
    · dsimp only
      split
      · trivial
      · rename_i unauthorized
        split
        · exact answerBasic_outline host resp
        · rename_i params parsed
          refine answerBearer_outline ⟨_, _, answered resp rfl, ?_, params, parsed, rfl⟩ host attempt.2 resp
          exact not_not.mp unauthorized
        · trivial

end Outline

section
variable {c : Client} {host : String} {original : Request} {run : ClientRun} {cred : Credential}

/-- Of the requests in a run, each is explained by the replies before it. -/
theorem explained_of_begins (begins : (c.doRequest host original).Begins run) {before after : ClientRun}
    {e : Exchange ClientOp ClientAns} (split : run = before ++ e :: after) : c.Explained original before e.1 := by
  have outline : wp (pastGhost (c.Explained original)) (c.doRequest host original) (fun _ _ => True) [] :=
    doRequest_outline host
  exact begins.pre outline split

/-- Without header and form there is no secret in a request. -/
theorem not_carries {req : Request} (header : req.authorization = "") (body : ∀ fields, req.body ≠ .form fields) :
    ¬ c.Carries cred req := by
  rintro (⟨-, basic⟩ | ⟨-, bearer⟩ | ⟨fields, form, -⟩)
  · rw [header] at basic
    simpa using congrArg String.toList basic
  · rw [header] at bearer
    simpa using congrArg String.toList bearer
  · exact body fields form

/-- In every run in which the replies are loyal, the secrets are contained: the caller's own
requests never leave the origin, and the others are explained by these replies. -/
theorem doRequest_contained (begins : (c.doRequest host original).Begins run) (loyal : c.Loyal original.url run) :
    c.Contained original.url cred run := by
  intro before hop req answer after split carries
  have explained := explained_of_begins begins split
  have earlier : before ⊆ run := split ▸ List.subset_append_left _ _
  cases hop with
  | registry =>
    have same : req.url = original.url := explained
    exact .inl (same ▸ SameOrigin.refl original.url)
  | realm =>
    obtain ⟨q, reply, replied, names⟩ := explained
    rcases loyal.challenge q reply req.url (replied.mono earlier) names with own | ⟨own, secure⟩
    · exact .inl own
    · exact .inr ⟨⟨q, reply, replied, own, names⟩, secure⟩
  | redirect =>
    obtain ⟨initial, chain⟩ := explained
    rcases loyal.redirect initial req (chain.mono earlier) with own | ⟨header, body⟩
    · exact .inl own
    · exact absurd carries (not_carries header body)

end

namespace Parties

def cred : Credential := { username := "alice", password := "secret" }

def registryURL : URL := { scheme := "https", hostname := "registry.example", path := "/v2/" }

def tokenURL : URL := { scheme := "https", hostname := "auth.example", path := "/token" }

def blobURL : URL := { scheme := "https", hostname := "cdn.example", path := "/blob" }

def attackerURL : URL := { scheme := "https", hostname := "attacker.example", path := "/v2/" }

def stolenURL : URL := { scheme := "https", hostname := "attacker.example", path := "/token" }

def urls : List (String × URL) := [("https://auth.example/token", tokenURL), ("https://cdn.example/blob", blobURL),
  ("https://attacker.example/v2/", attackerURL), ("https://attacker.example/token", stolenURL)]

/-- The header is kept for the same hostname only, and base64 is left out. -/
def client : Client where
  credential _ := .ok cred
  parser :=
    { parse := fun text => (urls.lookup text).elim (.error (.text "invalid URL")) .ok
      resolvePath := fun base path => if path = "" then base else path }
  keepsAuthorization u v := u.hostname == v.hostname
  parseChallenge header :=
    match urls.find? fun entry => header = "Bearer realm=\"" ++ entry.1 ++ "\"" with
    | some (realm, _) => (.bearer, fun key => if key = "realm" then realm else "")
    | none => (.unknown, fun _ => "")
  scopesForHost _ := []
  cleanScopes scopes := scopes
  addQuery query _ _ := query
  encodeToString text := text
  decodeToken _ := .error (.json "unexpected end of JSON input")
  decodeTokens body := .ok (body, "")
  errorResponse _ := .text "response status code"
  quote u := u.hostname

def request : Request := { method := "GET", url := registryURL }

/-- Servers that answer so, and an empty cache. -/
def replies (serve : Request → ServerReply) : (op : ClientOp) → ClientAns op
  | .roundTrip _ req => .ok (serve req)
  | .getScheme _ => none
  | .getToken _ _ _ => none
  | .joinFetch _ _ _ => none
  | .setToken _ _ _ _ => ()

end Parties

/-! A registry that names a token service of its own choice and has its blobs elsewhere. -/

namespace Honest
open Parties

def tokenRequest : Request := { method := "GET", url := tokenURL, authorization := "Basic alice:secret" }

def authorized : Request := { request with authorization := "Bearer t0ken" }

def challenge : ServerReply := { status := 401, challenge := "Bearer realm=\"https://auth.example/token\"" }

def redirection : ServerReply := { status := 307, location := "https://cdn.example/blob" }

def serve (req : Request) : ServerReply :=
  if req.url = tokenURL then { status := 200, body := "t0ken" }
  else if req.url = blobURL then { status := 200 }
  else if req = authorized then redirection else challenge

def run : ClientRun :=
  [⟨.getScheme "registry.example", none⟩, ⟨.roundTrip .registry request, .ok challenge⟩,
    ⟨.joinFetch "registry.example" .bearer "", none⟩,
    ⟨.roundTrip .realm tokenRequest, .ok { status := 200, body := "t0ken" }⟩,
    ⟨.setToken "registry.example" .bearer "" "t0ken", ()⟩, ⟨.roundTrip .registry authorized, .ok redirection⟩,
    ⟨.roundTrip .redirect { method := "GET", url := blobURL }, .ok { status := 200 }⟩]

theorem begins : (client.doRequest "registry.example" request).Begins run := by
  have same : (client.doRequest "registry.example" request).exchanges (replies serve) = run := by decide +kernel
  exact same ▸ Prog.begins_exchanges (replies serve) _

/-- The only challenge in the run is the registry's, and so is the only redirect. -/
theorem replied_cases {hop : Hop} {req : Request} {reply : ServerReply}
    (replied : (⟨.roundTrip hop req, .ok reply⟩ : Exchange ClientOp ClientAns) ∈ run) :
    reply.location = "" ∧ (reply.status = 200 ∨ req = request ∧ reply = challenge) ∨
      hop = .registry ∧ req = authorized ∧ reply = redirection := by
  simp only [run, List.mem_cons, List.not_mem_nil, or_false, Sigma.mk.injEq, reduceCtorEq, false_and, false_or,
    ClientOp.roundTrip.injEq] at replied
  obtain ⟨⟨-, rfl⟩, heq⟩ | ⟨⟨-, rfl⟩, heq⟩ | ⟨⟨rfl, rfl⟩, heq⟩ | ⟨⟨-, rfl⟩, heq⟩ := replied
  · cases heq
    exact .inl ⟨rfl, .inr ⟨rfl, rfl⟩⟩
  · cases heq
    exact .inl ⟨rfl, .inl rfl⟩
  · cases heq
    exact .inr ⟨rfl, rfl, rfl⟩
  · cases heq
    exact .inl ⟨rfl, .inl rfl⟩

theorem loyal : client.Loyal request.url run := by
  constructor
  · rintro req reply u ⟨hop, replied⟩ ⟨realm, url, ⟨unauthorized, params, parsed, rfl⟩, named, eq⟩
    obtain ⟨-, fine | ⟨rfl, rfl⟩⟩ | ⟨-, -, rfl⟩ := replied_cases replied
    · rw [fine] at unauthorized
      exact absurd unauthorized (by decide)
    · refine .inr ⟨SameOrigin.refl _, fun downgrades => ?_⟩
      have chosen : params = fun key => if key = "realm" then "https://auth.example/token" else "" :=
        (congrArg Prod.snd parsed).symm
      subst chosen
      have reached : url = tokenURL := (Except.ok.inj named).symm
      have scheme : u.scheme = "https" := by rw [eq, reached]; rfl
      rw [Downgrades, scheme] at downgrades
      exact absurd downgrades.2 (by decide)
    · exact absurd unauthorized (by decide)
  · intro initial next chain
    cases chain with
    | first sent => exact absurd rfl sent
    | next before replied led =>
      obtain ⟨nowhere, -⟩ | ⟨rfl, rfl, rfl⟩ := replied_cases replied
      · rw [Client.redirect, if_pos (.inl nowhere)] at led
        cases led
      · cases before with
        | first _ =>
          obtain rfl : ({ method := "GET", url := blobURL } : Request) = next := Except.ok.inj (Option.some.inj led)
          exact .inr ⟨rfl, nofun⟩

end Honest

/-- The password goes to the token service that the registry has named. -/
theorem doRequest_contained_honest :
    (⟨.roundTrip .realm Honest.tokenRequest, .ok { status := 200, body := "t0ken" }⟩ : Exchange ClientOp ClientAns) ∈
        Honest.run ∧
      Parties.client.Carries Parties.cred Honest.tokenRequest ∧
      Parties.client.Contained Parties.request.url Parties.cred Honest.run :=
  ⟨by simp [Honest.run], .inl ⟨by decide, by decide⟩, doRequest_contained Honest.begins Honest.loyal⟩

/-! A registry that redirects to a server of somebody else. -/

namespace Stolen
open Parties

def redirected : Request := { method := "GET", url := attackerURL }

def tokenRequest : Request := { method := "GET", url := stolenURL, authorization := "Basic alice:secret" }

def redirection : ServerReply := { status := 302, location := "https://attacker.example/v2/" }

def challenge : ServerReply := { status := 401, challenge := "Bearer realm=\"https://attacker.example/token\"" }

/-- The replies of the registry, which redirects, and of the attacker, who challenges. -/
def serve (req : Request) : ServerReply :=
  if req.url = registryURL then redirection
  else if req.url = attackerURL then challenge
  else { status := 403 }

def before : ClientRun :=
  [⟨.getScheme "registry.example", none⟩, ⟨.roundTrip .registry request, .ok redirection⟩,
    ⟨.roundTrip .redirect redirected, .ok challenge⟩, ⟨.joinFetch "registry.example" .bearer "", none⟩]

theorem run_eq : (client.doRequest "registry.example" request).exchanges (replies serve) =
    before ++ ⟨.roundTrip .realm tokenRequest, .ok { status := 403 }⟩ :: [] := by
  decide +kernel

/-- The attacker's realm was not named by the registry. -/
theorem not_allowed : ¬ client.Allowed registryURL before stolenURL := by
  rintro (same | ⟨⟨req, answer, ⟨hop, member⟩, own, realm, url, ⟨unauthorized, -⟩, -⟩, -⟩)
  · exact absurd same (by decide)
  · simp only [before, List.mem_cons, List.not_mem_nil, or_false, Sigma.mk.injEq, reduceCtorEq, false_and, false_or,
      ClientOp.roundTrip.injEq] at member
    obtain ⟨⟨-, rfl⟩, heq⟩ | ⟨⟨-, rfl⟩, -⟩ := member
    · cases heq
      exact absurd unauthorized (by decide)
    · exact absurd own (by decide)

end Stolen

/-- The registry redirects to an attacker, whose challenge gets the password. -/
theorem doRequest_leaks_password :
    ∃ run, (Parties.client.doRequest "registry.example" Parties.request).Begins run ∧
      Parties.client.credential "registry.example" = .ok Parties.cred ∧
      ¬ Parties.client.Contained Parties.request.url Parties.cred run := by
  refine ⟨_, Prog.begins_exchanges (Parties.replies Stolen.serve) _, rfl, fun contained => Stolen.not_allowed ?_⟩
  exact contained Stolen.before .realm Stolen.tokenRequest _ [] Stolen.run_eq (.inl ⟨by decide, by decide⟩)

end Client

end OrasGo.Auth
