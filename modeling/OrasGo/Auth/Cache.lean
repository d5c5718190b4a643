import Mathlib.Data.Finmap
import OrasGo.Base.Trace
import OrasGo.Syncutil.Once

/-! `auth.concurrentCache`, used by any number of goroutines. -/

namespace OrasGo.Auth
open Interleaving Syncutil

/-- `Scheme`, a byte. -/
structure Scheme where
  byte : UInt8
  deriving DecidableEq

namespace Scheme

@[match_pattern] def unknown : Scheme := ⟨0⟩

@[match_pattern] def basic : Scheme := ⟨1⟩

@[match_pattern] def bearer : Scheme := ⟨2⟩

/-- The schemes that package `auth` has a constant for. -/
def Declared (scheme : Scheme) : Prop := scheme = unknown ∨ scheme = basic ∨ scheme = bearer

instance : DecidablePred Declared := fun scheme =>
  inferInstanceAs (Decidable (scheme = unknown ∨ scheme = basic ∨ scheme = bearer))

/-- `Scheme.String`. -/
def string : Scheme → String
  | basic => "Basic"
  | bearer => "Bearer"
  | _ => "Unknown"

end Scheme

/-- The key of `status`: the parts, joined with spaces. -/
def statusKey (registry : String) (scheme : Scheme) (key : String) : String :=
  registry ++ " " ++ scheme.string ++ " " ++ key

/-- The operations on the two maps of the cache, on the entries and the `Once` objects, which
are numbered in the order in which they are allocated, and the call of the function that is
given to `Set`. -/
inductive CacheOp
  | loadEntry (registry : String)
  | loadToken (entry : Nat) (key : String)
  | loadOrStoreOnce (statusKey : String)
  | receive (once : Nat)
  | fetch
  | release (once : Nat)
  | finish (once : Nat) (result : Except Error String)
  | deleteOnce (statusKey : String)
  | loadOrStoreEntry (registry : String) (scheme : Scheme)
  | storeEntry (registry : String) (entry : Nat)
  | storeToken (entry : Nat) (key token : String)

/-- An entry comes with its scheme, which never changes. `loadOrStoreEntry` answers with the
new entry and with the one that was there. -/
@[reducible] def CacheAns : CacheOp → Type
  | .loadEntry _ => Option (Nat × Scheme)
  | .loadToken _ _ => Option String
  | .loadOrStoreOnce _ => Nat
  | .receive _ => Received String
  | .fetch => Outcome String
  | .loadOrStoreEntry _ _ => Nat × Option (Nat × Scheme)
  | _ => Unit

abbrev CacheCode := Prog CacheOp CacheAns

namespace CacheCode

def loadEntry (registry : String) : CacheCode (Option (Nat × Scheme)) := Prog.perform (CacheOp.loadEntry registry)

def loadToken (entry : Nat) (key : String) : CacheCode (Option String) := Prog.perform (CacheOp.loadToken entry key)

def loadOrStoreOnce (statusKey : String) : CacheCode Nat := Prog.perform (CacheOp.loadOrStoreOnce statusKey)

def receive (once : Nat) : CacheCode (Received String) := Prog.perform (CacheOp.receive once)

def fetch : CacheCode (Outcome String) := Prog.perform CacheOp.fetch

def loadOrStoreEntry (registry : String) (scheme : Scheme) : CacheCode (Nat × Option (Nat × Scheme)) :=
  Prog.perform (CacheOp.loadOrStoreEntry registry scheme)

end CacheCode

inductive CacheResult
  | scheme (result : Except Error Scheme)
  | token (result : Except Error String)
  | panicked
  deriving DecidableEq

open CacheCode

/-- `concurrentCache.GetScheme`. -/
def getScheme (registry : String) : CacheCode CacheResult := do
  match ← loadEntry registry with
  | none => return .scheme (.error .notFound)
  | some entry => return .scheme (.ok entry.2)

/-- `concurrentCache.GetToken`. -/
def getToken (registry : String) (scheme : Scheme) (key : String) : CacheCode CacheResult := do
  match ← loadEntry registry with
  | none => return .token (.error .notFound)
  | some entry =>
    if entry.2 ≠ scheme then return .token (.error .notFound)
    else match ← loadToken entry.1 key with
      | some token => return .token (.ok token)
      | none => return .token (.error .notFound)

/-- The entry for the registry, which is replaced when its scheme is another one. -/
def entryFor (registry : String) (scheme : Scheme) : Nat × Option (Nat × Scheme) → CacheCode Nat
  | (new, none) => return new
  | (new, some entry) => do
    if entry.2 ≠ scheme then
      Prog.perform (CacheOp.storeEntry registry new)
      return new
    else return entry.1

/-- `concurrentCache.Set` with what `Once.Do` has returned. -/
def cacheToken (registry : String) (scheme : Scheme) (key : String) : Option (Done String) → CacheCode CacheResult
  | none => return .panicked
  | some done => do
    if done.first then Prog.perform (CacheOp.deleteOnce (statusKey registry scheme key))
    match done.result with
    | .error err => return .token (.error err)
    | .ok token =>
      if done.first then
        let entry ← loadOrStoreEntry registry scheme >>= entryFor registry scheme
        Prog.perform (CacheOp.storeToken entry key token)
      return .token (.ok token)

/-- `concurrentCache.Set`. -/
def set (registry : String) (scheme : Scheme) (key : String) (f : CacheCode (Outcome String)) : CacheCode CacheResult := do
  let once ← loadOrStoreOnce (statusKey registry scheme key)
  onceDo (receive once) (Prog.perform (CacheOp.release once)) (fun result => Prog.perform (CacheOp.finish once result)) f >>=
    cacheToken registry scheme key

inductive Call
  | getScheme (registry : String)
  | getToken (registry : String) (scheme : Scheme) (key : String)
  | set (registry : String) (scheme : Scheme) (key : String)

def Call.code : Call → CacheCode CacheResult
  | .getScheme registry => Auth.getScheme registry
  | .getToken registry scheme key => Auth.getToken registry scheme key
  | .set registry scheme key => Auth.set registry scheme key fetch

/-- The channel of a `Once`, with the result once it is closed. -/
inductive Status
  | ready
  | taken
  | closed (result : Except Error String)

structure Entry where
  scheme : Scheme
  tokens : Finmap (fun _ : String => String) := ∅

structure CacheState where
  status : Finmap (fun _ : String => Nat) := ∅
  onces : List Status := []
  cache : Finmap (fun _ : String => Nat) := ∅
  entries : List Entry := []

namespace CacheState

/-- The entry of the registry with its scheme. -/
def entryOf (s : CacheState) (registry : String) : Option (Nat × Scheme) :=
  (s.cache.lookup registry).bind fun entry => s.entries[entry]?.map fun e => (entry, e.scheme)

/-- The `select` of `Do`. A context may end at any time. -/
def received (s : CacheState) (once : Nat) : Received String → Option CacheState
  | .cancelled err => if isContextError err then some s else none
  | .inProgress => match s.onces[once]? with
    | some .ready => some { s with onces := s.onces.set once .taken }
    | _ => none
  | .finished result => match s.onces[once]? with
    | some (.closed result') => if result = result' then some s else none
    | _ => none

def storeToken (s : CacheState) (entry : Nat) (key token : String) : CacheState :=
  { s with entries := s.entries.modify entry fun e => { e with tokens := e.tokens.insert key token } }

def perform (s : CacheState) : (op : CacheOp) → CacheAns op → Option CacheState
  | .loadEntry registry, answer => if answer = s.entryOf registry then some s else none
  | .loadToken entry key, answer => if answer = s.entries[entry]?.bind (·.tokens.lookup key) then some s else none
  | .loadOrStoreOnce statusKey, once => match s.status.lookup statusKey with
    | some present => if once = present then some s else none
    | none =>
      if once = s.onces.length then
        some { s with status := s.status.insert statusKey once, onces := s.onces ++ [.ready] }
      else none
  | .receive once, answer => s.received once answer
  | .fetch, _ => some s
  | .release once, _ => some { s with onces := s.onces.set once .ready }
  | .finish once result, _ => some { s with onces := s.onces.set once (.closed result) }
  | .deleteOnce statusKey, _ => some { s with status := s.status.erase statusKey }
  | .loadOrStoreEntry registry scheme, answer =>
    if answer = (s.entries.length, s.entryOf registry) then
      match s.entryOf registry with
      | some _ => some { s with entries := s.entries ++ [{ scheme }] }
      | none => some { s with entries := s.entries ++ [{ scheme }], cache := s.cache.insert registry s.entries.length }
    else none
  | .storeEntry registry entry, _ => some { s with cache := s.cache.insert registry entry }
  | .storeToken entry key token, _ => some (s.storeToken entry key token)

end CacheState

def cacheMachine : Machine CacheOp CacheAns CacheState Call CacheResult where
  perform s _ _ op a := (s.perform op a).map fun s' => (s', [])
  env _ _ := False

/-- The calls are about to be made on `NewCache()`. -/
def start (calls : List Call) : Pool CacheOp CacheAns CacheState Call CacheResult :=
  ⟨{}, calls.map fun call => ⟨call, call.code⟩⟩

end OrasGo.Auth
