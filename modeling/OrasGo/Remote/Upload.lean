import OrasGo.Remote.URL

/-! `blobStore.completePushAfterInitialPost`: the PUT to the location that the
registry has returned to the POST which opens an upload. -/

namespace OrasGo.Remote
open URL

/-- What `net/url` makes of a reference, and of two paths. -/
structure URLParser where
  parse : String → Except Error URL
  resolvePath : String → String → String

/-- The response to the POST: the URL and the `Authorization` of the request it
answers, which is the last one if there were redirects, and the `Location`. -/
structure PostResponse where
  requestURL : URL
  requestAuthorization : String
  location : String

/-- The PUT request. -/
structure PutRequest where
  url : URL
  contentLength : Int
  contentType : String
  digest : Digest
  authorization : String
  content : Bytes
  deriving DecidableEq

/-- `Response.Location`. -/
def PostResponse.locationURL (parser : URLParser) (resp : PostResponse) : Except Error URL :=
  if resp.location = "" then .error (.text "http: no Location header in response")
  else (parser.parse resp.location).map (resp.requestURL.resolveReference parser.resolvePath)

/-- The work-around for registries that leave out the port 443. -/
def addPort443 (req location : URL) : URL :=
  if req.port = "443" ∧ location.hostname = req.hostname ∧ location.port = "" then { location with port := req.port }
  else location

/-- `completePushAfterInitialPost` up to the PUT it sends. `rewindable` says that
the content is of one of the types whose length `http.NewRequest` knows. The request is for
the location itself: that `http.NewRequest` parses its text again is left out. -/
def completePushAfterInitialPost (parser : URLParser) (req : URL) (resp : PostResponse) (expected : Descriptor)
    (content : Bytes) (rewindable : Bool) : Except Error PutRequest :=
  match resp.locationURL parser with
  | .error err => .error err
  | .ok location =>
    let url := addPort443 req location
    if rewindable ∧ (content.length : Int) ≠ expected.size then
      .error (.text ("mismatch content length " ++ toString content.length ++ ": expect " ++ toString expected.size))
    else match url.sendError with
    | some err => .error err
    | none => .ok
      { url, contentLength := expected.size, contentType := "application/octet-stream", digest := expected.digest,
        authorization := resp.requestAuthorization, content }

/-- The PUT stays inside the origin of the POST. -/
structure InsideOrigin (post put : URL) : Prop where
  hostname : put.hostname = post.hostname
  port : put.effectivePort = post.effectivePort
  secure : ¬ Downgrades post put

/-- The location stays inside the origin; the port may be left out if it is 443. -/
structure LocationInside (post location : URL) : Prop where
  hostname : location.hostname = post.hostname
  port : location.effectivePort = post.effectivePort ∨ post.port = "443" ∧ location.port = ""
  secure : ¬ Downgrades post location

section
variable {parser : URLParser} {req : URL} {resp : PostResponse} {expected : Descriptor} {content : Bytes}
  {rewindable : Bool} {put : PutRequest}

theorem addPort443_inside (post location : URL) :
    InsideOrigin post (addPort443 post location) ↔ LocationInside post location := by
  rw [addPort443]
  split
  · rename_i missing
    obtain ⟨port, hostname, empty⟩ := missing
    have explicit : URL.effectivePort { location with port := post.port } = post.effectivePort := by
      simp [effectivePort, port]
    exact ⟨fun inside => ⟨inside.hostname, .inr ⟨port, empty⟩, inside.secure⟩,
      fun inside => ⟨inside.hostname, explicit, inside.secure⟩⟩
  · rename_i complete
    refine ⟨fun inside => ⟨inside.hostname, .inl inside.port, inside.secure⟩, fun inside => ?_⟩
    refine ⟨inside.hostname, inside.port.resolve_right fun left => complete ?_, inside.secure⟩
    exact ⟨left.1, inside.hostname, left.2⟩

theorem completePush_sent (sent : completePushAfterInitialPost parser req resp expected content rewindable = .ok put) :
    ∃ location, resp.locationURL parser = .ok location ∧ put.url = addPort443 req location ∧
      put.authorization = resp.requestAuthorization ∧ put.content = content := by
  rw [completePushAfterInitialPost] at sent
  split at sent
  · cases sent
  rename_i location found
  dsimp only at sent
  split at sent
  · cases sent
  split at sent
  · cases sent
  · cases sent
    exact ⟨location, found, rfl, rfl, rfl⟩

/-- The PUT carries the content and the authorization of the POST. It stays inside
the origin of the POST exactly if the location does that the registry has returned. -/
theorem put_inside_iff (sent : completePushAfterInitialPost parser req resp expected content rewindable = .ok put) :
    put.authorization = resp.requestAuthorization ∧ put.content = content ∧
    ∃ location, resp.locationURL parser = .ok location ∧ (InsideOrigin req put.url ↔ LocationInside req location) := by
  obtain ⟨location, found, url, authorization, body⟩ := completePush_sent sent
  refine ⟨authorization, body, location, found, ?_⟩
  rw [url]
  exact addPort443_inside req location

end

namespace Upload

/-- The POST over TLS to a registry whose port is given. -/
def post : URL := { scheme := "https", hostname := "registry.example", port := "443", path := "/v2/app/blobs/uploads/" }

/-- A parser that knows an absolute location without the port, and one at another host. -/
def parser : URLParser where
  parse text :=
    if text = "https://registry.example/upload/1" then
      .ok { scheme := "https", hostname := "registry.example", path := "/upload/1" }
    else if text = "http://attacker.example/upload/1" then
      .ok { scheme := "http", hostname := "attacker.example", path := "/upload/1" }
    else .error (.text "parse error")
  resolvePath base ref := if ref = "" then base else ref

def blob : Descriptor where
  mediaType := "application/octet-stream"
  digest := "sha256:2cf24dba5fb0a30e26e83b2ac5b9e29e1b161e5c1fa7425e73043362938b9824"
  size := 5

def bytes : Bytes := [0x68, 0x65, 0x6c, 0x6c, 0x6f]

def put (location : String) : Except Error PutRequest :=
  completePushAfterInitialPost parser post ⟨post, "Bearer secret", location⟩ blob bytes true

end Upload

/-- A location without the port 443 is taken for the origin of the POST. -/
theorem put_inside_port443 : ∃ put, Upload.put "https://registry.example/upload/1" = .ok put ∧
    InsideOrigin Upload.post put.url := by
  have sent : Upload.put "https://registry.example/upload/1" = .ok
      { url := { scheme := "https", hostname := "registry.example", port := "443", path := "/upload/1" },
        contentLength := 5, contentType := "application/octet-stream", digest := Upload.blob.digest,
        authorization := "Bearer secret", content := Upload.bytes } := by
    decide +kernel
  obtain ⟨_, _, location, found, inside⟩ := put_inside_iff sent
  refine ⟨_, sent, inside.mpr ?_⟩
  cases found
  exact ⟨by decide, by decide, by decide⟩

/-- The PUT with the secret of the POST goes to another host, in the clear. -/
theorem put_leaves_origin : ∃ put, Upload.put "http://attacker.example/upload/1" = .ok put ∧
    put.authorization = "Bearer secret" ∧ put.content = Upload.bytes ∧ put.url.hostname = "attacker.example" ∧
    Downgrades Upload.post put.url ∧ ¬ InsideOrigin Upload.post put.url := by
  refine ⟨{ url := { scheme := "http", hostname := "attacker.example", path := "/upload/1" },
            contentLength := 5, contentType := "application/octet-stream", digest := Upload.blob.digest,
            authorization := "Bearer secret", content := Upload.bytes }, by decide +kernel, rfl, rfl, rfl, by decide, ?_⟩
  intro inside
  exact absurd inside.hostname (by decide)

end OrasGo.Remote
