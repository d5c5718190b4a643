import OrasGo.Registry.Reference
import OrasGo.Remote.Upload

/-! `Repository.Tags`: a listing follows the `Link` headers of its pages. -/

namespace OrasGo.Remote.Pagination
open Registry

/-- What listing uses of `net/url`, `strings` and `fmt`. A port that `Port` returns is made of
digits, an opaque URL has no host, and the text of a URL with a hostname parses to one with that
host, and its scheme in lower case. -/
structure Library extends URLParser where
  format : URL → String
  setQuery : String → List (String × String) → String
  toLower : String → String
  quote : String → String
  port_digits : ∀ text u, parse text = .ok u → ':' ∉ u.port.toList
  parse_opaqueData : ∀ text u, parse text = .ok u → u.hostname ≠ "" → u.opaqueData = ""
  toLower_eq_empty : ∀ text, toLower text = "" ↔ text = ""
  parse_format : ∀ u v, u.hostname ≠ "" → u.opaqueData = "" → parse (format u) = .ok v →
    toLower v.scheme = toLower u.scheme ∧ v.hostname = u.hostname ∧ v.port = u.port

/-- The response to the request for a page. `request` is the URL of the last request that was
sent for it, to the host it names, `tags` what its body decodes to, and `rejection` what `ParseErrorResponse` returns. -/
structure Page where
  statusCode : Nat := 200
  request : URL
  hosted : request.hostname ≠ ""
  link : String := ""
  tags : Except Error (List String)
  rejection : Error := .unsupported

structure Repository where
  plainHTTP : Bool := false
  reference : Reference
  tagListPageSize : Int := 0

/-- `Reference.Host`. -/
def host (ref : Reference) : String :=
  if ref.registry = "docker.io" then "registry-1.docker.io" else ref.registry

/-- `buildRepositoryTagListURL`. -/
def buildRepositoryTagListURL (r : Repository) : String :=
  (if r.plainHTTP then "http" else "https") ++ "://" ++ host r.reference ++ "/v2/" ++ r.reference.repository ++ "/tags/list"

namespace Library
variable (lib : Library)

/-- The port with its default for the scheme. -/
def port (u : URL) : String :=
  if u.port ≠ "" then u.port
  else if lib.toLower u.scheme = "https" then "443"
  else if lib.toLower u.scheme = "http" then "80"
  else ""

def canonicalHostPort (u : URL) : String := lib.toLower u.hostname ++ ":" ++ lib.port u

/-- A scheme is ASCII, so `EqualFold` compares the lower case. -/
def isSameOrigin (a b : URL) : Bool :=
  lib.toLower a.scheme = lib.toLower b.scheme && lib.canonicalHostPort a = lib.canonicalHostPort b

/-- `parseLink`, with nothing for `errNoLink`. -/
def parseLink (resp : Page) : Except Error (Option String) :=
  if resp.link = "" then .ok none
  else if resp.link.toList.head? ≠ some '<' then
    .error (.text ("invalid next link " ++ lib.quote resp.link ++ ": missing '<'"))
  else if '>' ∉ resp.link.toList then
    .error (.text ("invalid next link " ++ lib.quote resp.link ++ ": missing '>'"))
  else
    let link := String.ofList (resp.link.toList.takeWhile (· ≠ '>')).tail
    match lib.parse link with
    | .error err => .error err
    | .ok ref =>
      let linkURL := resp.request.resolveReference lib.resolvePath ref
      if lib.isSameOrigin resp.request linkURL then .ok (some (lib.format linkURL))
      else .error (.text ("invalid next link " ++ lib.quote link ++ ": not the same origin as " ++
        lib.quote (lib.format resp.request)))

/-- The request for a page, parsed from its text. -/
def request (r : Repository) (last url : String) : Except Error URL :=
  (lib.parse url).map fun u =>
    let q := (if 0 < r.tagListPageSize then [("n", toString r.tagListPageSize)] else []) ++
      if last = "" then [] else [("last", last)]
    { u with rawQuery := if q = [] then u.rawQuery else lib.setQuery u.rawQuery q }

/-- `Repository.tags` after the response has arrived. -/
def next (fn : List String → Option Error) (resp : Page) : Except Error (Option String) := do
  if resp.statusCode ≠ 200 then throw resp.rejection
  let tags ← resp.tags
  match fn tags with
  | some err => throw err
  | none => lib.parseLink resp

/-- `Repository.Tags`, as far as the first pages: each request with the URL of the last one sent
for its response, and what is returned. Page `n` is answered by `send n`, and given to `fn n`. -/
def tags (r : Repository) (send : Nat → URL → Except Error Page) (fn : Nat → List String → Option Error) :
    (pages n : Nat) → (last url : String) → List (URL × Option URL) × Option (Except Error Unit)
  | 0, _, _, _ => ([], none)
  | pages + 1, n, last, url =>
    match lib.request r last url with
    | .error err => ([], some (.error err))
    | .ok req =>
      match send n req with
      | .error err => ([(req, none)], some (.error err))
      | .ok resp =>
        match lib.next (fn n) resp with
        | .error err => ([(req, some resp.request)], some (.error err))
        | .ok none => ([(req, some resp.request)], some (.ok ()))
        | .ok (some url) =>
          let (log, result) := tags r send fn pages (n + 1) "" url
          ((req, some resp.request) :: log, result)

/-- The origin of a URL: its scheme, its hostname in lower case and its effective port. -/
def origin (u : URL) : String × String × String := (lib.toLower u.scheme, lib.toLower u.hostname, lib.port u)

variable {lib} {r : Repository} {send : Nat → URL → Except Error Page} {fn : Nat → List String → Option Error}

theorem origin_congr {u v : URL} (scheme : lib.toLower v.scheme = lib.toLower u.scheme)
    (hostname : v.hostname = u.hostname) (port : v.port = u.port) : lib.origin v = lib.origin u := by
  simp [origin, Library.port, scheme, hostname, port]

theorem request_origin {last url : String} {req : URL} (made : lib.request r last url = .ok req) :
    ∃ u, lib.parse url = .ok u ∧ lib.origin req = lib.origin u := by
  unfold request at made
  cases parsed : lib.parse url with
  | error err =>
    rw [parsed] at made
    cases made
  | ok u =>
    rw [parsed] at made
    cases made
    exact ⟨u, rfl, rfl⟩

/-- The last colon is the one in front of the port. -/
theorem isSameOrigin_origin {a b : URL} (same : lib.isSameOrigin a b = true) (left : ':' ∉ (lib.port a).toList)
    (right : ':' ∉ (lib.port b).toList) : lib.origin b = lib.origin a := by
  rw [isSameOrigin, Bool.and_eq_true, decide_eq_true_eq, decide_eq_true_eq] at same
  obtain ⟨scheme, joined⟩ := same
  have lists : (lib.toLower a.hostname).toList ++ ':' :: (lib.port a).toList =
      (lib.toLower b.hostname).toList ++ ':' :: (lib.port b).toList := by
    simpa [canonicalHostPort] using congrArg String.toList joined
  have parts : (lib.toLower a.hostname).toList = (lib.toLower b.hostname).toList ∧
      (lib.port a).toList = (lib.port b).toList := by
    rcases List.append_eq_append_iff.mp lists with ⟨between, host, rest⟩ | ⟨between, host, rest⟩
    all_goals
      cases between with
      | nil => simp_all
      | cons c more =>
        simp only [List.cons_append, List.cons.injEq] at rest
        simp [rest.2] at left right
  rw [origin, origin, scheme, String.toList_inj.mp parts.1, String.toList_inj.mp parts.2]

theorem colon_notMem_port {u : URL} : ':' ∉ (lib.port u).toList ↔ ':' ∉ u.port.toList := by
  unfold port
  split
  · rfl
  · rename_i none
    rw [not_not.mp none]
    split
    · decide
    · split <;> decide

theorem colon_notMem_resolveReference {u ref : URL} (base : ':' ∉ u.port.toList) (digits : ':' ∉ ref.port.toList) :
    ':' ∉ (u.resolveReference lib.resolvePath ref).port.toList := by
  unfold URL.resolveReference
  dsimp only
  split
  · exact digits
  · split
    · exact List.not_mem_nil
    · exact base

theorem resolveReference_opaqueData {u ref : URL} (plain : ref.hostname ≠ "" → ref.opaqueData = "")
    (hosted : (u.resolveReference lib.resolvePath ref).hostname ≠ "") :
    (u.resolveReference lib.resolvePath ref).opaqueData = "" := by
  unfold URL.resolveReference at hosted ⊢
  dsimp only at hosted ⊢
  split at hosted
  · rw [if_pos ‹_›]
    exact plain hosted
  · rw [if_neg ‹_›]
    split at hosted
    · exact absurd rfl hosted
    · rw [if_neg ‹_›]
      exact not_not.mp ‹_›

theorem parseLink_origin {resp : Page} {url : String} (linked : lib.parseLink resp = .ok (some url))
    (digits : ':' ∉ (lib.port resp.request).toList) {v : URL} (parsed : lib.parse url = .ok v) :
    lib.origin v = lib.origin resp.request := by
  unfold parseLink at linked
  split at linked
  · cases linked
  split at linked
  · cases linked
  split at linked
  · cases linked
  dsimp only at linked
  split at linked
  · cases linked
  rename_i ref found
  split at linked
  · rename_i same
    cases linked
    have one := isSameOrigin_origin same digits (colon_notMem_port.mpr
      (colon_notMem_resolveReference (colon_notMem_port.mp digits) (lib.port_digits _ _ found)))
    -- The link names a host, since it has the one of the request.
    have hosted : (resp.request.resolveReference lib.resolvePath ref).hostname ≠ "" := by
      intro empty
      have lower := congrArg (fun o => o.2.1) one
      simp only [origin, empty, (lib.toLower_eq_empty "").mpr rfl] at lower
      exact resp.hosted ((lib.toLower_eq_empty _).mp lower.symm)
    obtain ⟨scheme, hostname, port⟩ := lib.parse_format _ _ hosted
      (resolveReference_opaqueData (lib.parse_opaqueData _ _ found) hosted) parsed
    rw [origin_congr scheme hostname port, one]
  · cases linked

theorem next_link {fn : List String → Option Error} {resp : Page} {url : String}
    (done : lib.next fn resp = .ok (some url)) : lib.parseLink resp = .ok (some url) := by
  unfold next at done
  split at done
  · cases done
  · cases decoded : resp.tags with
    | error err =>
      rw [decoded] at done
      cases done
    | ok tags =>
      rw [decoded] at done
      change (match fn tags with | some err => _ | none => _) = _ at done
      split at done
      · cases done
      · exact done

/-- By induction on the pages: the text of the next page parses to a URL of the origin. -/
theorem tags_origin {base : String × String × String} (digits : ':' ∉ base.2.2.toList) {pages n : Nat} {last url : String}
    (start : ∀ u, lib.parse url = .ok u → lib.origin u = base)
    (stays : ∀ hop ∈ (lib.tags r send fn pages n last url).1, ∀ v, hop.2 = some v → lib.origin v = base) :
    ∀ hop ∈ (lib.tags r send fn pages n last url).1, lib.origin hop.1 = base := by
  induction pages generalizing n last url with
  | zero => simp [tags]
  | succ pages ih =>
    unfold tags at stays ⊢
    cases made : lib.request r last url with
    | error err => simp
    | ok req =>
      obtain ⟨u, parsed, same⟩ := request_origin made
      have first : lib.origin req = base := same.trans (start u parsed)
      simp only [made] at stays ⊢
      cases sent : send n req with
      | error err => simpa [sent] using first
      | ok resp =>
        simp only [sent] at stays ⊢
        cases done : lib.next (fn n) resp with
        | error err => simpa [done] using first
        | ok link =>
          cases link with
          | none => simpa [done] using first
          | some url' =>
            simp only [done, List.forall_mem_cons] at stays ⊢
            have here := stays.1 resp.request rfl
            refine ⟨first, ih (fun v parsed' => ?_) stays.2⟩
            rw [parseLink_origin (next_link done) ?_ parsed', here]
            rwa [← here] at digits

end Library

open Library

/-- Every page that is requested has the origin of the tag list, in every run in which the
responses come from that origin. -/
theorem tags_stay_in_origin (lib : Library) (r : Repository) (send : Nat → URL → Except Error Page)
    (fn : Nat → List String → Option Error) (pages : Nat) (last : String) {base : URL}
    (parsed : lib.parse (buildRepositoryTagListURL r) = .ok base)
    (stays : ∀ hop ∈ (lib.tags r send fn pages 0 last (buildRepositoryTagListURL r)).1, ∀ v, hop.2 = some v →
      lib.origin v = lib.origin base) :
    ∀ hop ∈ (lib.tags r send fn pages 0 last (buildRepositoryTagListURL r)).1, lib.origin hop.1 = lib.origin base := by
  refine tags_origin (colon_notMem_port.mpr (lib.port_digits _ _ parsed)) (fun u again => ?_) stays
  cases parsed.symm.trans again
  rfl

def listed : URL := { scheme := "https", hostname := "registry.example", path := "/v2/app/tags/list" }

def second : URL := { listed with rawQuery := "last=a" }

def elsewhere : URL := { second with hostname := "other.example" }

def library : Library where
  parse text :=
    if text = "https://registry.example/v2/app/tags/list" then .ok listed
    else if text = "?last=a" then .ok { rawQuery := "last=a" }
    else if text = "https://registry.example/v2/app/tags/list?last=a" then .ok second
    else if text = "https://other.example/v2/app/tags/list?last=a" then .ok elsewhere
    else .error .unsupported
  resolvePath base path := if path = "" then base else path
  format u :=
    if u = second then "https://registry.example/v2/app/tags/list?last=a"
    else if u = elsewhere then "https://other.example/v2/app/tags/list?last=a" else ""
  setQuery query _ := query
  toLower := id
  quote := id
  port_digits text u parsed := by
    split at parsed
    · cases parsed
      decide
    split at parsed
    · cases parsed
      decide
    split at parsed
    · cases parsed
      decide
    split at parsed <;> cases parsed
    decide
  parse_opaqueData text u parsed named := by
    split at parsed
    · cases parsed
      rfl
    split at parsed
    · cases parsed
      rfl
    split at parsed
    · cases parsed
      rfl
    split at parsed <;> cases parsed
    rfl
  toLower_eq_empty _ := Iff.rfl
  parse_format u v _ _ parsed := by
    by_cases home : u = second
    · subst home
      cases parsed
      decide
    rw [if_neg home] at parsed
    by_cases same : u = elsewhere
    · subst same
      cases parsed
      decide
    · rw [if_neg same] at parsed
      cases parsed

def app : Repository := { reference := ⟨"registry.example", "app", ""⟩ }

/-- The registry sends two pages; the client may have been redirected to another host. -/
def answer (redirected : Bool) (n : Nat) (req : URL) : Except Error Page :=
  let sent := if redirected then { req with hostname := "other.example" } else req
  if named : sent.hostname = "" then .error (.text "http: no Host in request URL")
  else .ok { request := sent, hosted := named, tags := .ok []
             link := if n = 0 then "<?last=a>; rel=\"next\"" else "" }

/-- Two pages, both from the registry itself. -/
theorem tags_stay_in_origin_home :
    (library.tags app (answer false) (fun _ _ => none) 2 0 "" (buildRepositoryTagListURL app)).1.map Prod.fst =
      [listed, second] ∧
    ∀ hop ∈ (library.tags app (answer false) (fun _ _ => none) 2 0 "" (buildRepositoryTagListURL app)).1,
      library.origin hop.1 = library.origin listed :=
  ⟨by decide +kernel,
    tags_stay_in_origin library app (answer false) _ 2 "" (by decide +kernel) (by decide +kernel)⟩

/-- After a redirect the next page is requested from the host that it led to. -/
theorem tags_leave_origin : library.parse (buildRepositoryTagListURL app) = .ok listed ∧
    (library.tags app (answer true) (fun _ _ => none) 2 0 "" (buildRepositoryTagListURL app)).1.map Prod.fst =
      [listed, elsewhere] ∧ library.origin elsewhere ≠ library.origin listed := by
  decide +kernel

end OrasGo.Remote.Pagination
