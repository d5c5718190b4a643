import OrasGo.Auth.Client
import OrasGo.Base.Enumeration
import OrasGo.Base.Text

/-! The docker configuration file, in memory and on disk. -/

namespace OrasGo.Credentials
open Iteration Auth

/-- `AuthConfig`: one entry of the field `auths`. -/
structure AuthConfig where
  auth : String := ""
  identityToken : String := ""
  registryToken : String := ""
  username : String := ""
  password : String := ""
  deriving DecidableEq

abbrev Fields (V : Type) := Finmap fun _ : String => V

/-- What `Decoder.Decode` makes of a file whose top-level value should be an object. -/
inductive Decoded (Raw : Type)
  | eof
  | failed (err : Error)
  | null
  | object (content : Fields Raw)

/-- JSON and base64, which lose nothing. `Raw` are the values of the top-level fields,
`Entry` those of the field `auths`. -/
structure Encoding (Raw Entry Data : Type) where
  marshalString : String → Raw
  unmarshalString : Raw → Except Error String
  unmarshalStrings : Raw → Except Error (Fields String)
  marshalAuths : Fields Entry → Raw
  unmarshalAuths : Raw → Except Error (Fields Entry)
  marshalAuthConfig : AuthConfig → Entry
  unmarshalAuthConfig : Entry → Except Error AuthConfig
  marshalContent : Fields Raw → Data
  decodeContent : Data → Decoded Raw
  encodeToString : String → String
  decodeString : String → Except Error String
  string : ∀ s, unmarshalString (marshalString s) = .ok s
  auths : ∀ entries, unmarshalAuths (marshalAuths entries) = .ok entries
  authConfig : ∀ config, unmarshalAuthConfig (marshalAuthConfig config) = .ok config
  content : ∀ fields, decodeContent (marshalContent fields) = .object fields
  base64 : ∀ s, decodeString (encodeToString s) = .ok s
  base64_empty : encodeToString "" = ""

/-- `Config`. There is no `content` if the map is nil. -/
structure Config (Raw Entry : Type) where
  path : String
  content : Option (Fields Raw) := some ∅
  authsCache : Fields Entry := ∅
  credentialsStore : String := ""
  credentialHelpers : Fields String := ∅

inductive ConfigFile (Data : Type)
  | missing
  | unreadable (err : Error)
  | text (content : Data)

/-- The steps of saving the file that fail. -/
structure SaveFaults where
  mkdir : Option Error := none
  ingest : Option Error := none
  rename : Option Error := none

def errInvalidConfigFormat : Error := .text "invalid config format"

/-- An error that wraps `ErrInvalidConfigFormat`. -/
def invalidFormat (what : String) : Error := .wrap what errInvalidConfigFormat

/-- `strings.TrimPrefix`. -/
def trimStart (start addr : String) : String :=
  match addr.toList.dropPrefix? start.toList with
  | some rest => String.ofList rest
  | none => addr

/-- `ToHostname`. -/
def toHostname (addr : String) : String :=
  let addr := trimStart "https://" (trimStart "http://" addr)
  match Text.cut '/' addr with
  | some (host, _) => host
  | none => addr

namespace Encoding
variable {Raw Entry Data : Type} (enc : Encoding Raw Entry Data)

/-- `encodeAuth`. -/
def encodeAuth (username password : String) : String :=
  if username = "" ∧ password = "" then "" else enc.encodeToString (username ++ ":" ++ password)

/-- `decodeAuth`. -/
def decodeAuth (authStr : String) : Except Error (String × String) :=
  if authStr = "" then .ok ("", "")
  else match enc.decodeString authStr with
  | .error err => .error err
  | .ok decoded =>
    match Text.cut ':' decoded with
    | some pair => .ok pair
    | none => .error (.text ("auth '" ++ decoded ++ "' does not conform the base64(username:password) format"))

/-- `NewAuthConfig`. -/
def newAuthConfig (cred : Credential) : AuthConfig :=
  { auth := enc.encodeAuth cred.username cred.password, identityToken := cred.refreshToken,
    registryToken := cred.accessToken }

/-- `AuthConfig.Credential`. -/
def credential (ac : AuthConfig) : Except Error Credential :=
  let cred : Credential :=
    { username := ac.username, password := ac.password, refreshToken := ac.identityToken,
      accessToken := ac.registryToken }
  if ac.auth ≠ "" then
    match enc.decodeAuth ac.auth with
    | .error _ => .error (invalidFormat "failed to decode auth field")
    | .ok (username, password) => .ok { cred with username, password }
  else .ok cred

/-- A top-level field, which has its zero value if it is not there. -/
def decodeField {α : Type} (content : Option (Fields Raw)) (name : String) (zero : α) (unmarshal : Raw → Except Error α)
    (what : String) : Except Error α :=
  match content.bind (·.lookup name) with
  | none => .ok zero
  | some raw =>
    match unmarshal raw with
    | .ok value => .ok value
    | .error _ => .error (invalidFormat what)

def decodeCredentialsStore (content : Option (Fields Raw)) : Except Error String :=
  decodeField content "credsStore" "" enc.unmarshalString "failed to unmarshal creds store field"

def decodeCredentialHelpers (content : Option (Fields Raw)) : Except Error (Fields String) :=
  decodeField content "credHelpers" ∅ enc.unmarshalStrings "failed to unmarshal cred helpers field"

def decodeAuths (content : Option (Fields Raw)) : Except Error (Fields Entry) :=
  decodeField content "auths" ∅ enc.unmarshalAuths "failed to unmarshal auths field"

/-- `Load`, once the content is decoded. -/
def loadContent (path : String) (content : Option (Fields Raw)) : Except Error (Config Raw Entry) := do
  let credentialsStore ← enc.decodeCredentialsStore content
  let credentialHelpers ← enc.decodeCredentialHelpers content
  let authsCache ← enc.decodeAuths content
  return { path, content, authsCache, credentialsStore, credentialHelpers }

/-- `Load`. -/
def load (path : String) : ConfigFile Data → Except Error (Config Raw Entry)
  | .missing => .ok { path }
  | .unreadable err => .error (.wrap ("failed to open config file at " ++ path) err)
  | .text text =>
    match enc.decodeContent text with
    | .eof => .ok { path }
    | .failed _ => .error (invalidFormat ("failed to decode config file " ++ path))
    | .null => enc.loadContent path none
    | .object content => enc.loadContent path (some content)

/-- The credential in an entry of `auths`. -/
def entryCredential (entry : Entry) : Except Error Credential :=
  match enc.unmarshalAuthConfig entry with
  | .error _ => .error (invalidFormat "failed to unmarshal auth field")
  | .ok ac => enc.credential ac

/-- `GetCredential`, where the map is visited in the given order. -/
def getCredential (order : Enumeration String) (cfg : Config Raw Entry) (serverAddress : String) :
    Except Error Credential :=
  match cfg.authsCache.lookup serverAddress with
  | some entry => enc.entryCredential entry
  | none =>
    match (order.entries cfg.authsCache).find? fun e => toHostname e.1 = serverAddress with
    | some e => enc.entryCredential e.2
    | none => .ok emptyCredential

/-- The content that `saveFile` writes. -/
def savedContent (cfg : Config Raw Entry) (content : Fields Raw) : Fields Raw :=
  let content := if cfg.credentialsStore ≠ "" then content.insert "credsStore" (enc.marshalString cfg.credentialsStore)
    else content.erase "credsStore"
  content.insert "auths" (enc.marshalAuths cfg.authsCache)

/-- `saveFile`. The content in memory has changed even if the file has not. -/
def saveFile (dir : String → String) (faults : SaveFaults) (cfg : Config Raw Entry) (file : ConfigFile Data) :
    Option Error × Config Raw Entry × ConfigFile Data :=
  match cfg.content with
  | none => (some (.panicked "assignment to entry in nil map"), cfg, file)
  | some content =>
    let content := enc.savedContent cfg content
    let cfg := { cfg with content := some content }
    match faults.mkdir, faults.ingest, faults.rename with
    | some err, _, _ => (some (.wrap ("failed to make directory " ++ dir cfg.path) err), cfg, file)
    | none, some err, _ => (some (.wrap "failed to save config file" err), cfg, file)
    | none, none, some err => (some (.wrap "failed to save config file" err), cfg, file)
    | none, none, none => (none, cfg, .text (enc.marshalContent content))

/-- `PutCredential`. -/
def putCredential (dir : String → String) (faults : SaveFaults) (cfg : Config Raw Entry) (file : ConfigFile Data)
    (serverAddress : String) (cred : Credential) : Option Error × Config Raw Entry × ConfigFile Data :=
  let entry := enc.marshalAuthConfig (enc.newAuthConfig cred)
  enc.saveFile dir faults { cfg with authsCache := cfg.authsCache.insert serverAddress entry } file

/-- `DeleteCredential`. -/
def deleteCredential (dir : String → String) (faults : SaveFaults) (cfg : Config Raw Entry) (file : ConfigFile Data)
    (serverAddress : String) : Option Error × Config Raw Entry × ConfigFile Data :=
  if serverAddress ∈ cfg.authsCache then
    enc.saveFile dir faults { cfg with authsCache := cfg.authsCache.erase serverAddress } file
  else (none, cfg, file)

/-- `SetCredentialsStore`. -/
def setCredentialsStore (dir : String → String) (faults : SaveFaults) (cfg : Config Raw Entry) (file : ConfigFile Data)
    (credsStore : String) : Option Error × Config Raw Entry × ConfigFile Data :=
  enc.saveFile dir faults { cfg with credentialsStore := credsStore } file

end Encoding

/-- `FileStore`. -/
structure FileStore (Raw Entry : Type) where
  disablePut : Bool := false
  config : Config Raw Entry

def errPlaintextPutDisabled : Error := .text "putting plaintext credentials is disabled"

def errBadCredentialFormat : Error := .text "bad credential format"

/-- `validateCredentialFormat`. -/
def validateCredentialFormat (cred : Credential) : Option Error :=
  if ':' ∈ cred.username.toList then some (.wrap "colons(:) are not allowed in username" errBadCredentialFormat) else none

namespace FileStore
variable {Raw Entry Data : Type} (enc : Encoding Raw Entry Data)

/-- `FileStore.Get`. -/
def get (order : Enumeration String) (fs : FileStore Raw Entry) (serverAddress : String) : Except Error Credential :=
  enc.getCredential order fs.config serverAddress

/-- `FileStore.Put`. -/
def put (dir : String → String) (faults : SaveFaults) (fs : FileStore Raw Entry) (file : ConfigFile Data)
    (serverAddress : String) (cred : Credential) : Option Error × FileStore Raw Entry × ConfigFile Data :=
  if fs.disablePut then (some errPlaintextPutDisabled, fs, file)
  else match validateCredentialFormat cred with
  | some err => (some err, fs, file)
  | none =>
    let (err, config, file) := enc.putCredential dir faults fs.config file serverAddress cred
    (err, { fs with config }, file)

end FileStore

end OrasGo.Credentials
