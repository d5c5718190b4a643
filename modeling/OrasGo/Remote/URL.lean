import Mathlib.Data.Finset.Basic
import OrasGo.Descriptor

/-! URLs as far as they decide where a request goes. -/

namespace OrasGo.Remote

/-- `url.URL`. `Host` is kept as the hostname and the port that `Hostname` and
`Port` split it into; `opaqueData` is `Opaque`. -/
structure URL where
  scheme : String := ""
  opaqueData : String := ""
  user : Option String := none
  hostname : String := ""
  port : String := ""
  path : String := ""
  rawQuery : String := ""
  deriving DecidableEq, Repr

namespace URL

/-- `Host` is not empty. -/
def hasHost (u : URL) : Bool := u.hostname != "" || u.port != ""

/-- `URL.ResolveReference`, where `resolvePath` is the function of that name. The branch for an
opaque base is left out: the base is the URL of a request that has been sent. -/
def resolveReference (resolvePath : String → String → String) (u ref : URL) : URL :=
  let url := { ref with scheme := if ref.scheme = "" then u.scheme else ref.scheme }
  if ref.scheme ≠ "" ∨ ref.hasHost ∨ ref.user ≠ none then { url with path := resolvePath ref.path "" }
  else if ref.opaqueData ≠ "" then { url with user := none, hostname := "", port := "", path := "" }
  else
    { url with
      rawQuery := if ref.path = "" ∧ ref.rawQuery = "" then u.rawQuery else ref.rawQuery
      hostname := u.hostname
      port := u.port
      user := u.user
      path := resolvePath u.path ref.path }

/-- The port a request goes to. -/
def effectivePort (u : URL) : String :=
  if u.port ≠ "" then u.port
  else if u.scheme = "https" then "443"
  else if u.scheme = "http" then "80"
  else ""

/-- The two URLs lead to the same server in the same way. -/
structure SameOrigin (u v : URL) : Prop where
  scheme : v.scheme = u.scheme
  hostname : v.hostname = u.hostname
  port : v.effectivePort = u.effectivePort

instance (u v : URL) : Decidable (SameOrigin u v) :=
  decidable_of_iff (v.scheme = u.scheme ∧ v.hostname = u.hostname ∧ v.effectivePort = u.effectivePort)
    ⟨fun ⟨scheme, hostname, port⟩ => ⟨scheme, hostname, port⟩, fun same => ⟨same.scheme, same.hostname, same.port⟩⟩

theorem SameOrigin.refl (u : URL) : SameOrigin u u := ⟨rfl, rfl, rfl⟩

/-- What was sent over TLS to the one is sent in the clear to the other. -/
def Downgrades (u v : URL) : Prop := u.scheme = "https" ∧ v.scheme = "http"

instance (u v : URL) : Decidable (Downgrades u v) := inferInstanceAs (Decidable (_ ∧ _))

/-- Whether the HTTP client sends a request to the URL at all. -/
def sendError (u : URL) : Option Error :=
  if u.scheme ≠ "http" ∧ u.scheme ≠ "https" then some (.text ("unsupported protocol scheme " ++ u.scheme))
  else if u.hasHost then none
  else some (.text "http: no Host in request URL")

end URL

end OrasGo.Remote
