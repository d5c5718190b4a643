import OrasGo.Auth.Isolation

/-! `NewSingleContextCache`: a cache that also keeps each token without its key. -/

namespace OrasGo.Auth
open Interleaving Syncutil

/-- The `Cache` interface. -/
structure Cache where
  getScheme : String → CacheCode CacheResult
  getToken : String → Scheme → String → CacheCode CacheResult
  set : String → Scheme → String → CacheCode (Outcome String) → CacheCode CacheResult

def concurrentCache : Cache := ⟨Auth.getScheme, Auth.getToken, Auth.set⟩

def hostCache (cache : Cache) : Cache where
  getScheme := cache.getScheme
  getToken registry scheme _ := cache.getToken registry scheme ""
  set registry scheme _ fetch := cache.set registry scheme "" fetch

/-- `fallbackCache.Set` with what the primary cache has returned. -/
def setSecondary (secondary : Cache) (registry : String) (scheme : Scheme) (key : String) :
    CacheResult → CacheCode CacheResult
  | .token (.ok token) => secondary.set registry scheme key (pure (.returned (.ok token)))
  | result => pure result

def fallbackCache (primary secondary : Cache) : Cache where
  getScheme registry := do
    match ← primary.getScheme registry with
    | .scheme (.ok scheme) => return .scheme (.ok scheme)
    | _ => secondary.getScheme registry
  getToken registry scheme key := do
    match ← primary.getToken registry scheme key with
    | .token (.ok token) => return .token (.ok token)
    | _ => secondary.getToken registry scheme key
  set registry scheme key fetch := primary.set registry scheme key fetch >>= setSecondary secondary registry scheme key

/-- `NewSingleContextCache`: both caches are the same one. -/
def newSingleContextCache : Cache := fallbackCache concurrentCache (hostCache concurrentCache)

abbrev CacheRun := Pool CacheOp CacheAns (CacheState × Log) Call CacheResult

/-- Concurrent `Set` calls for one registry and scheme on a new single-context cache. -/
def singleStart (registry : String) (scheme : Scheme) (keys : List String) : CacheRun :=
  ⟨({}, []), keys.map fun key => ⟨.set registry scheme key, newSingleContextCache.set registry scheme key CacheCode.fetch⟩⟩

section Provenance

/-- The tokens that an answer tells a call. -/
def gained : (op : CacheOp) → CacheAns op → List String
  | .fetch, .returned (.ok token) => [token]
  | .receive _, .finished (.ok token) => [token]
  | _, _ => []

/-- A call keeps in mind the tokens it has been told; only these does it publish. -/
def tokenGhost (_ : Call) : Ghost CacheOp CacheAns (List String) where
  pre op known := ∀ once token, op = .finish once (.ok token) → token ∈ known
  next op a known known' := known' = gained op a ++ known

def Knows (result : CacheResult) (known : List String) : Prop := ∀ token, result = .token (.ok token) → token ∈ known

def tokenPost (_ : Call) : CacheResult → List String → Prop := Knows

variable {call : Call} {registry : String} {scheme : Scheme} {key : String} {known : List String}

theorem wp_perform {α : Type} {op : CacheOp} {next : CacheAns op → CacheCode α} {post : α → List String → Prop}
    (other : ∀ once result, op ≠ .finish once result)
    (rest : ∀ a, wp (tokenGhost call) (next a) post (gained op a ++ known)) :
    wp (tokenGhost call) (.call op next) post known := by
  refine ⟨fun once token same => absurd same (other once _), ?_⟩
  rintro a _ rfl
  exact rest a

/-- The result of the function given to `Do` is one the call knows. -/
def KnowsOutcome (outcome : Outcome String) (known : List String) : Prop :=
  ∀ token, outcome = .returned (.ok token) → token ∈ known

def KnowsDone (done : Option (Done String)) (known : List String) : Prop :=
  ∀ d token, done = some d → d.result = .ok token → token ∈ known

theorem wp_token_settle {once : Nat} {outcome : Outcome String} (knows : KnowsOutcome outcome known) :
    wp (tokenGhost call) (settle (Prog.perform (CacheOp.release once))
      (fun result => Prog.perform (CacheOp.finish once result)) outcome) KnowsDone known := by
  cases outcome with
  | panicked =>
    refine wp_perform (by simp) fun a => ?_
    exact fun d token impossible => by cases impossible
  | returned result =>
    cases result with
    | ok token =>
      refine ⟨?_, ?_⟩
      · rintro once' token' ⟨⟩
        exact knows token rfl
      · rintro a _ rfl d token' ⟨⟩ ⟨⟩
        exact knows token rfl
    | error err =>
      change wp _ (if isContextError err = true then _ else _) _ _
      split
      · refine wp_perform (by simp) fun a => ?_
        rintro d token ⟨⟩ ⟨⟩
      · refine ⟨(fun once' token impossible => by cases impossible), ?_⟩
        rintro a _ rfl d token ⟨⟩ ⟨⟩

theorem wp_token_entryFor (answer : Nat × Option (Nat × Scheme)) :
    wp (tokenGhost call) (entryFor registry scheme answer) (fun _ known' => known' = known) known := by
  obtain ⟨new, present⟩ := answer
  cases present with
  | none => rfl
  | some entry =>
    change wp _ (if entry.2 ≠ scheme then _ else _) _ _
    split
    · exact wp_perform (by simp) fun a => rfl
    · rfl

theorem wp_token_cacheToken {done : Option (Done String)} (knows : KnowsDone done known) :
    wp (tokenGhost call) (cacheToken registry scheme key done) Knows known := by
  cases done with
  | none => exact fun token impossible => by cases impossible
  | some done =>
    obtain ⟨first, result⟩ := done
    cases first with
    | false =>
      cases result with
      | error err => exact fun token impossible => by cases impossible
      | ok token =>
        rintro _ ⟨⟩
        exact knows _ token rfl rfl
    | true =>
      refine wp_perform (by simp) fun a => ?_
      cases result with
      | error err => exact fun token impossible => by cases impossible
      | ok token =>
        have entry : wp (tokenGhost call) (CacheCode.loadOrStoreEntry registry scheme >>= entryFor registry scheme)
            (fun _ known' => known' = known) known := wp_perform (by simp) wp_token_entryFor
        refine wp_seq (p := CacheCode.loadOrStoreEntry registry scheme >>= entryFor registry scheme) _ entry ?_
        rintro entry _ rfl
        refine wp_perform (by simp) fun a => ?_
        rintro _ ⟨⟩
        exact knows _ token rfl rfl

theorem wp_token_set {f : CacheCode (Outcome String)}
    (function : ∀ known', known ⊆ known' → wp (tokenGhost call) f KnowsOutcome known') :
    wp (tokenGhost call) (set registry scheme key f) Knows known := by
  refine wp_perform (by simp) fun once => ?_
  have done : wp (tokenGhost call) (onceDo (CacheCode.receive once) (Prog.perform (CacheOp.release once))
      (fun result => Prog.perform (CacheOp.finish once result)) f) KnowsDone known := by
    refine wp_perform (by simp) fun received => ?_
    cases received with
    | cancelled err =>
      rintro d token ⟨⟩ ⟨⟩
    | finished result =>
      rintro d token ⟨⟩ ok
      cases ok
      exact List.mem_append_left _ (List.mem_singleton.mpr rfl)
    | inProgress =>
      refine wp_seq (p := f) _ (function _ (List.subset_append_right _ _)) ?_
      exact fun outcome known' knows => wp_token_settle knows
  exact wp_seq (p := onceDo _ _ _ f) _ done fun done known' knows => wp_token_cacheToken knows

theorem wp_token_single : wp (tokenGhost call) (newSingleContextCache.set registry scheme key CacheCode.fetch)
    (tokenPost call) [] := by
  have first : wp (tokenGhost call) (set registry scheme key CacheCode.fetch) Knows [] := by
    refine wp_token_set fun known' _ => ?_
    refine wp_perform (by simp) fun outcome => ?_
    rintro token rfl
    exact List.mem_append_left _ (List.mem_singleton.mpr rfl)
  refine wp_seq (p := set registry scheme key CacheCode.fetch) _ first ?_
  intro result known' knows
  cases result with
  | scheme | panicked => exact knows
  | token result =>
    cases result with
    | error err => exact knows
    | ok token =>
      refine wp_token_set fun known'' more => ?_
      rintro _ ⟨⟩
      exact more (knows token rfl)

/-- Some function that was given to one of the calls has returned the token. -/
def Obtained (n : Nat) (log : Log) (token : String) : Prop :=
  ∃ t < n, ⟨t, .fetch, .returned (.ok token)⟩ ∈ log

structure ProvenInv (s : CacheState × Log) (ghosts : List (Call × List String)) : Prop where
  results : ∀ (once : Nat) token, s.1.onces[once]? = some (.closed (.ok token)) → Obtained ghosts.length s.2 token
  known : ∀ (t : Nat) call known, ghosts[t]? = some (call, known) → ∀ token ∈ known, Obtained ghosts.length s.2 token

theorem Obtained.mono {n : Nat} {log log' : Log} {token : String} (obtained : Obtained n log token) (more : log ⊆ log') :
    Obtained n log' token := by
  obtain ⟨t, inside, member⟩ := obtained
  exact ⟨t, inside, more member⟩

theorem perform_results {s s' : CacheState} {op : CacheOp} {a : CacheAns op} {once : Nat} {token : String}
    (done : s.perform op a = some s') (closed : s'.onces[once]? = some (.closed (.ok token))) :
    s.onces[once]? = some (.closed (.ok token)) ∨ ∃ once', op = .finish once' (.ok token) := by
  cases op with
  | loadEntry _ | loadToken _ _ =>
    obtain ⟨_, rfl⟩ := of_ite_some done
    exact .inl closed
  | loadOrStoreOnce key =>
    simp only [CacheState.perform] at done
    split at done
    · obtain ⟨_, rfl⟩ := of_ite_some done
      exact .inl closed
    · obtain ⟨_, rfl⟩ := of_ite_some done
      rcases getElem?_concat_cases closed with old | ⟨_, impossible⟩
      · exact .inl old
      · cases impossible
  | receive once' =>
    cases a with
    | cancelled err =>
      obtain ⟨_, rfl⟩ := of_ite_some done
      exact .inl closed
    | inProgress =>
      simp only [CacheState.perform, CacheState.received] at done
      split at done
      · cases done
        rcases getElem?_set_cases closed with ⟨_, impossible⟩ | ⟨_, old⟩
        · cases impossible
        · exact .inl old
      · cases done
    | finished result =>
      simp only [CacheState.perform, CacheState.received] at done
      split at done
      · obtain ⟨_, rfl⟩ := of_ite_some done
        exact .inl closed
      · cases done
  | fetch | deleteOnce _ | storeEntry _ _ | storeToken _ _ _ =>
    cases done
    exact .inl closed
  | release once' =>
    cases done
    rcases getElem?_set_cases closed with ⟨_, impossible⟩ | ⟨_, old⟩
    · cases impossible
    · exact .inl old
  | finish once' result =>
    cases done
    rcases getElem?_set_cases closed with ⟨_, same⟩ | ⟨_, old⟩
    · cases same
      exact .inr ⟨once', rfl⟩
    · exact .inl old
  | loadOrStoreEntry registry scheme =>
    obtain ⟨_, stored⟩ := Option.ite_none_right_eq_some.mp done
    split at stored
    · cases stored
      exact .inl closed
    · cases stored
      exact .inl closed

theorem gained_cases {s s' : CacheState} {op : CacheOp} {a : CacheAns op} {token : String}
    (done : s.perform op a = some s') (member : token ∈ gained op a) :
    (∀ t, (⟨t, op, a⟩ : Event CacheOp CacheAns) = ⟨t, .fetch, .returned (.ok token)⟩) ∨
      ∃ once : Nat, s.onces[once]? = some (.closed (.ok token)) := by
  unfold gained at member
  split at member
  · cases List.mem_singleton.mp member
    exact .inl fun _ => rfl
  · rename_i once token'
    cases List.mem_singleton.mp member
    simp only [CacheState.perform, CacheState.received] at done
    split at done
    · rename_i result' atOnce
      obtain ⟨same, _⟩ := Option.ite_none_right_eq_some.mp done
      exact .inr ⟨once, same ▸ atOnce⟩
    · cases done
  · cases member

theorem proven_sound : Sound tokenGhost tokenPost cacheMachine.traced ProvenInv := by
  intro s ghosts t call known op a s' spawned inv found pre performed
  obtain ⟨performed, logged⟩ := traced_perform.mp performed
  obtain ⟨s₁, done, same⟩ := Option.map_eq_some_iff.mp performed
  cases same
  have inside : t < ghosts.length := (List.getElem?_eq_some_iff.mp found).1
  have more : s.2 ⊆ s'.2 := logged ▸ List.subset_append_left _ _
  refine ⟨gained op a ++ known, [], rfl, .nil, ?_, ?_⟩
  · rw [List.append_nil, List.length_set]
    intro once token closed
    rcases perform_results done closed with old | ⟨once', rfl⟩
    · exact (inv.results once token old).mono more
    · exact (inv.known t call known found token (pre once' token rfl)).mono more
  · rw [List.append_nil, List.length_set]
    intro t' call' known' atT' token member
    rcases getElem?_set_cases atT' with ⟨_, same⟩ | ⟨_, old⟩
    · cases same
      rcases List.mem_append.mp member with new | old
      · rcases gained_cases done new with fetched | ⟨once, closed⟩
        · refine ⟨t, inside, ?_⟩
          rw [logged, fetched t]
          exact List.mem_append_right _ (List.mem_singleton.mpr rfl)
        · exact (inv.results once token closed).mono more
      · exact (inv.known t call known found token old).mono more
    · exact (inv.known t' call' known' old token member).mono more

theorem proven_reach {keys : List String} {σ : CacheRun}
    (reach : Reach cacheMachine.traced (singleStart registry scheme keys) σ) :
    Outline tokenGhost tokenPost ProvenInv σ := by
  have initially : Outline tokenGhost tokenPost ProvenInv (singleStart registry scheme keys) := by
    refine ⟨keys.map fun key => (.set registry scheme key, []), ?_, ?_, ?_⟩
    · rw [singleStart, List.forall₂_map_left_iff, List.forall₂_map_right_iff, List.forall₂_same]
      exact fun key _ => ⟨rfl, wp_token_single⟩
    · intro once token closed
      cases closed
    · intro t call known found token member
      rw [List.getElem?_map] at found
      obtain ⟨_, _, same⟩ := Option.map_eq_some_iff.mp found
      cases same
      cases member
  exact initially.reach proven_sound (fun _ _ _ _ impossible => absurd impossible.1 id) reach

end Provenance

/-- A function that was given for the key has returned the token. -/
def FetchedFor (keys : List String) (log : Log) (key token : String) : Prop :=
  ∃ t : Nat, keys[t]? = some key ∧ ⟨t, .fetch, .returned (.ok token)⟩ ∈ log

section Crossing
variable {registry key : String} {scheme : Scheme} {s s' : CacheState} {log : Log} {t n : Nat}

/-- The calls of the functions that were given to `Set`. -/
def fetches (log : Log) : List (Nat × Outcome String) :=
  log.filterMap fun e => match e with
    | ⟨t, .fetch, outcome⟩ => some (t, outcome)
    | _ => none

theorem mem_fetches {outcome : Outcome String} (member : ⟨t, .fetch, outcome⟩ ∈ log) : (t, outcome) ∈ fetches log :=
  List.mem_filterMap.mpr ⟨_, member, rfl⟩

/-- No flight is under way, and the entry of the registry has the scheme. -/
structure Calm (registry : String) (scheme : Scheme) (s : CacheState) : Prop where
  status : ∀ key, s.status.lookup key = none
  entry : ∀ e, s.entryOf registry = some e → e.2 = scheme

/-- On its own, the call gets to a state of which `Q` holds. -/
def Leads (t n : Nat) (s : CacheState) (log : Log) (p : CacheCode CacheResult)
    (Q : CacheState → Log → CacheCode CacheResult → Prop) : Prop :=
  ∃ s' log' p', Solo cacheMachine.traced t n (s, log) p (s', log') p' ∧ Q s' log' p'

variable {Q : CacheState → Log → CacheCode CacheResult → Prop}

theorem Leads.answer {op : CacheOp} {next : CacheAns op → CacheCode CacheResult} {a : CacheAns op}
    (done : s.perform op a = some s') (rest : Leads t n s' (log ++ [⟨t, op, a⟩]) (next a) Q) :
    Leads t n s log (.call op next) Q := by
  obtain ⟨s'', log'', p'', solo, holds⟩ := rest
  refine ⟨s'', log'', p'', .step (traced_perform.mpr ⟨?_, rfl⟩) solo, holds⟩
  exact Option.map_eq_some_iff.mpr ⟨s', done, rfl⟩

theorem Leads.here {p : CacheCode CacheResult} (holds : Q s log p) : Leads t n s log p Q :=
  ⟨s, log, p, .refl, holds⟩

theorem entryOf_storeToken (s : CacheState) (entry : Nat) (key token registry : String) :
    (s.storeToken entry key token).entryOf registry = s.entryOf registry := by
  simp only [CacheState.entryOf, CacheState.storeToken, List.getElem?_modify]
  congr 1
  funext id
  cases s.entries[id]? with
  | none => rfl
  | some e =>
    by_cases same : entry = id
    · simp [same]
    · simp [same]

theorem lookup_flown (calm : Calm registry scheme s) (key key' : String) (once : Nat) :
    ((s.status.insert key once).erase key).lookup key' = none := by
  by_cases same : key' = key
  · rw [same, Finmap.lookup_erase]
  · rw [Finmap.lookup_erase_ne same, Finmap.lookup_insert_of_ne _ same]
    exact calm.status key'

theorem perform_receive {once : Nat} (ready : s.onces[once]? = some .ready) :
    s.perform (.receive once) Received.inProgress = some { s with onces := s.onces.set once .taken } := by
  simp [CacheState.perform, CacheState.received, ready]

theorem perform_fetch (s : CacheState) (outcome : Outcome String) : s.perform .fetch outcome = some s := rfl

theorem perform_newOnce {key : String} (free : s.status.lookup key = none) :
    s.perform (.loadOrStoreOnce key) s.onces.length =
      some { s with status := s.status.insert key s.onces.length, onces := s.onces ++ [.ready] } := by
  simp [CacheState.perform, free]

theorem perform_storeToken (s : CacheState) (entry : Nat) (key token : String) :
    s.perform (.storeToken entry key token) () = some (s.storeToken entry key token) := rfl

theorem perform_finish (s : CacheState) (once : Nat) (result : Except Error String) :
    s.perform (.finish once result) () = some { s with onces := s.onces.set once (.closed result) } := rfl

theorem perform_deleteOnce (s : CacheState) (key : String) :
    s.perform (.deleteOnce key) () = some { s with status := s.status.erase key } := rfl

theorem entryOf_newEntry {e : Nat × Scheme} (found : s.entryOf registry = some e) (new : Entry) :
    ({ s with entries := s.entries ++ [new] } : CacheState).entryOf registry = some e := by
  obtain ⟨here, known⟩ := entryOf_eq_some found
  obtain ⟨old, atOld, same⟩ := Option.map_eq_some_iff.mp known
  have kept : (s.entries ++ [new])[e.1]? = some old :=
    (List.getElem?_append_left (List.getElem?_eq_some_iff.mp atOld).1).trans atOld
  simp [CacheState.entryOf, here, kept, same]

theorem leads_store (entry : ∀ e, s.entryOf registry = some e → e.2 = scheme) (key token : String)
    {next : CacheResult → CacheCode CacheResult}
    (rest : ∀ s' log', s'.status = s.status → (∀ e, s'.entryOf registry = some e → e.2 = scheme) →
      fetches log' = fetches log → Leads t n s' log' (next (.token (.ok token))) Q) :
    Leads t n s log (((CacheCode.loadOrStoreEntry registry scheme >>= entryFor registry scheme) >>= fun entry => do
      Prog.perform (CacheOp.storeToken entry key token)
      return CacheResult.token (.ok token)) >>= next) Q := by
  cases found : s.entryOf registry with
  | none =>
    have stored : s.perform (.loadOrStoreEntry registry scheme) (s.entries.length, none) =
        some { s with entries := s.entries ++ [{ scheme }], cache := s.cache.insert registry s.entries.length } := by
      simp [CacheState.perform, found]
    refine Leads.answer stored (Leads.answer (perform_storeToken _ _ _ _) (rest _ _ rfl ?_ ?_))
    · rw [entryOf_storeToken]
      intro e atEntry
      have new : ({ s with
          entries := s.entries ++ [{ scheme }]
          cache := s.cache.insert registry s.entries.length } : CacheState).entryOf registry =
          some (s.entries.length, scheme) := by
        simp [CacheState.entryOf]
      cases new.symm.trans atEntry
      rfl
    · simp [fetches, List.filterMap_append]
  | some e =>
    have stored : s.perform (.loadOrStoreEntry registry scheme) (s.entries.length, some e) =
        some { s with entries := s.entries ++ [{ scheme }] } := by
      simp [CacheState.perform, found]
    have same : e.2 = scheme := entry e found
    refine Leads.answer stored ?_
    change Leads _ _ _ _ (((if e.2 ≠ scheme then _ else _) >>= _) >>= _) _
    rw [if_neg (not_not_intro same)]
    refine Leads.answer (perform_storeToken _ _ _ _) (rest _ _ rfl ?_ ?_)
    · rw [entryOf_storeToken]
      intro e' atEntry
      cases (entryOf_newEntry found { scheme }).symm.trans atEntry
      exact same
    · simp [fetches, List.filterMap_append]

/-- A call that nobody disturbs fetches its token and caches it. -/
theorem leads_primary (calm : Calm registry scheme s) (key token : String)
    {next : CacheResult → CacheCode CacheResult}
    (rest : ∀ s' log', Calm registry scheme s' → fetches log' = fetches log ++ [(t, .returned (.ok token))] →
      Leads t n s' log' (next (.token (.ok token))) Q) :
    Leads t n s log (set registry scheme key CacheCode.fetch >>= next) Q := by
  refine Leads.answer (perform_newOnce (calm.status _)) ?_
  refine Leads.answer (perform_receive List.getElem?_concat_length) ?_
  refine Leads.answer (perform_fetch _ (.returned (.ok token))) ?_
  refine Leads.answer (perform_finish _ _ _) ?_
  refine Leads.answer (perform_deleteOnce _ _) ?_
  refine leads_store ?_ key token ?_
  · exact calm.entry
  · intro s' log' status entry same
    refine rest s' log' ⟨fun key' => ?_, entry⟩ ?_
    · rw [status]
      exact lookup_flown calm _ key' _
    · rw [same]
      simp [fetches, List.filterMap_append]

/-- The first call that gets to the host cache leaves its token in the `Once` there. -/
theorem leads_host (calm : Calm registry scheme s) (token : String) :
    Leads t n s log (set registry scheme "" (pure (.returned (.ok token)))) fun s' log' _ =>
      s'.status.lookup (statusKey registry scheme "") = some s.onces.length ∧
        s'.onces[s.onces.length]? = some (.closed (.ok token)) ∧ fetches log' = fetches log := by
  refine Leads.answer (perform_newOnce (calm.status _)) ?_
  refine Leads.answer (perform_receive List.getElem?_concat_length) ?_
  refine Leads.answer (perform_finish _ _ _) ?_
  refine Leads.here ⟨Finmap.lookup_insert _, List.getElem?_set_self (by simp), ?_⟩
  simp [fetches, List.filterMap_append]

theorem leads_crossed {once : Nat} {token other : String}
    (present : s.status.lookup (statusKey registry scheme "") = some once)
    (closed : s.onces[once]? = some (.closed (.ok other))) :
    Leads t n s log (set registry scheme "" (pure (.returned (.ok token)))) fun _ log' p =>
      p = .ret (.token (.ok other)) ∧ fetches log' = fetches log := by
  have looked : s.perform (.loadOrStoreOnce (statusKey registry scheme "")) once = some s := by
    simp [CacheState.perform, present]
  have received : s.perform (.receive once) (Received.finished (.ok other)) = some s := by
    simp [CacheState.perform, CacheState.received, closed]
  refine Leads.answer looked (Leads.answer received (Leads.here ⟨rfl, ?_⟩))
  simp [fetches, List.filterMap_append]

theorem Leads.reach {threads : List (Thread CacheOp CacheAns Call CacheResult)} {call : Call}
    {p : CacheCode CacheResult} (leads : Leads t threads.length s log p Q) (found : threads[t]? = some ⟨call, p⟩) :
    ∃ s' log' p', Reach cacheMachine.traced ⟨(s, log), threads⟩ ⟨(s', log'), threads.set t ⟨call, p'⟩⟩ ∧ Q s' log' p' := by
  obtain ⟨s', log', p', solo, holds⟩ := leads
  exact ⟨s', log', p', solo.reach found, holds⟩

/-- A call before and after the primary cache has its token. -/
abbrev fetchThread (registry : String) (scheme : Scheme) (key : String) : Thread CacheOp CacheAns Call CacheResult :=
  ⟨.set registry scheme key, newSingleContextCache.set registry scheme key CacheCode.fetch⟩

abbrev hostThread (registry : String) (scheme : Scheme) (key token : String) : Thread CacheOp CacheAns Call CacheResult :=
  ⟨.set registry scheme key, set registry scheme "" (pure (.returned (.ok token)))⟩

theorem primary_reach {threads : List (Thread CacheOp CacheAns Call CacheResult)} (log : Log)
    (calm : Calm registry scheme s) (found : threads[t]? = some (fetchThread registry scheme key)) (token : String) :
    ∃ s' log', Reach cacheMachine.traced ⟨(s, log), threads⟩
        ⟨(s', log'), threads.set t (hostThread registry scheme key token)⟩ ∧ Calm registry scheme s' ∧
      fetches log' = fetches log ++ [(t, .returned (.ok token))] := by
  have leads : Leads t threads.length s log (newSingleContextCache.set registry scheme key CacheCode.fetch)
      fun s' log' p => Calm registry scheme s' ∧ fetches log' = fetches log ++ [(t, .returned (.ok token))] ∧
        p = set registry scheme "" (pure (.returned (.ok token))) :=
    leads_primary calm key token fun s' log' calm fetched => Leads.here ⟨calm, fetched, rfl⟩
  obtain ⟨s', log', p', reach, calm', fetched, rfl⟩ := leads.reach found
  exact ⟨s', log', reach, calm', fetched⟩

/-- Two calls with different keys, one of which gets the token of the other. -/
theorem crossing (registry : String) (scheme : Scheme) {keys : List String} {i j : Nat} {kᵢ kⱼ : String}
    (atI : keys[i]? = some kᵢ) (atJ : keys[j]? = some kⱼ) (different : kᵢ ≠ kⱼ) : ∃ σ : CacheRun, Reach cacheMachine.traced (singleStart registry scheme keys) σ ∧
      σ.Returned j (.token (.ok "a")) ∧ ¬ FetchedFor keys σ.shared.2 kⱼ "a" := by
  have apart : i ≠ j := by
    rintro rfl
    exact different (Option.some.inj (atI.symm.trans atJ))
  have thread : ∀ (t : Nat) (key : String), keys[t]? = some key →
      (singleStart registry scheme keys).threads[t]? = some (fetchThread registry scheme key) := by
    intro t key atT
    rw [singleStart, List.getElem?_map, atT]
    rfl
  have calm₀ : Calm registry scheme {} := ⟨fun key => rfl, fun e impossible => by cases impossible⟩
  -- both calls fetch their tokens
  obtain ⟨s₁, log₁, reach₁, calm₁, fetched₁⟩ := primary_reach [] calm₀ (thread i kᵢ atI) "a"
  generalize waiting₁ : (singleStart registry scheme keys).threads.set i (hostThread registry scheme kᵢ "a") = threads₁
    at reach₁
  have atI₁ : threads₁[i]? = some (hostThread registry scheme kᵢ "a") := by
    rw [← waiting₁]
    exact List.getElem?_set_self (List.getElem?_eq_some_iff.mp (thread i kᵢ atI)).1
  have atJ₁ : threads₁[j]? = some (fetchThread registry scheme kⱼ) := by
    rw [← waiting₁, List.getElem?_set_ne apart]
    exact thread j kⱼ atJ
  obtain ⟨s₂, log₂, reach₂, calm₂, fetched₂⟩ := primary_reach log₁ calm₁ atJ₁ "b"
  generalize waiting₂ : threads₁.set j (hostThread registry scheme kⱼ "b") = threads₂ at reach₂
  have atI₂ : threads₂[i]? = some (hostThread registry scheme kᵢ "a") := by
    rw [← waiting₂, List.getElem?_set_ne apart.symm]
    exact atI₁
  have atJ₂ : threads₂[j]? = some (hostThread registry scheme kⱼ "b") := by
    rw [← waiting₂]
    exact List.getElem?_set_self (List.getElem?_eq_some_iff.mp atJ₁).1
  -- the second finds the token of the first in the host cache
  obtain ⟨s₃, log₃, p₃, reach₃, present, closed, fetched₃⟩ := (leads_host calm₂ "a").reach atI₂
  generalize waiting₃ : threads₂.set i ⟨.set registry scheme kᵢ, p₃⟩ = threads₃ at reach₃
  have atJ₃ : threads₃[j]? = some (hostThread registry scheme kⱼ "b") := by
    rw [← waiting₃, List.getElem?_set_ne apart]
    exact atJ₂
  obtain ⟨s₄, log₄, p₄, reach₄, rfl, fetched₄⟩ := (leads_crossed present closed).reach atJ₃
  refine ⟨_, reach₁.trans (reach₂.trans (reach₃.trans reach₄)), ?_, ?_⟩
  · exact ⟨_, List.getElem?_set_self (List.getElem?_eq_some_iff.mp atJ₃).1⟩
  · rintro ⟨t, atT, member⟩
    have seen := mem_fetches member
    rw [fetched₄, fetched₃, fetched₂, fetched₁] at seen
    have whose : t = i ∨ t = j ∧ "a" = "b" := by simpa [fetches] using seen
    rcases whose with rfl | ⟨_, impossible⟩
    · exact different (Option.some.inj (atI.symm.trans atT))
    · exact absurd impossible (by decide)

end Crossing

/-- Each `Set` call that succeeds returns a token that a function given for its key has
returned, in every run, exactly when all the calls have the same key. -/
theorem single_context_iff (registry : String) (scheme : Scheme) (keys : List String) :
    (∀ σ : CacheRun, Reach cacheMachine.traced (singleStart registry scheme keys) σ →
      ∀ (t : Nat) (key token : String), keys[t]? = some key → σ.Returned t (.token (.ok token)) →
        FetchedFor keys σ.shared.2 key token) ↔ ∀ key ∈ keys, ∀ key' ∈ keys, key = key' := by
  constructor
  · intro faithful key member key' member'
    obtain ⟨i, atI⟩ := List.mem_iff_getElem?.mp member
    obtain ⟨j, atJ⟩ := List.mem_iff_getElem?.mp member'
    by_contra different
    obtain ⟨σ, reach, returned, crossed⟩ := crossing registry scheme atI atJ different
    exact crossed (faithful σ reach j key' "a" atJ returned)
  · intro same σ reach t key token atT returned
    obtain ⟨ghosts, fits, inv⟩ := proven_reach reach
    obtain ⟨label, found⟩ := returned
    obtain ⟨known, atGhost, knows⟩ := ghost_of_thread fits found
    obtain ⟨t', inside, member⟩ := inv.known t _ known atGhost token (knows token rfl)
    have length : ghosts.length = keys.length := by
      have labels := congrArg List.length (Reach.labels (fun s t n op a s' spawned performed => ?_) reach)
      · simpa [fits.length_eq, singleStart] using labels
      · obtain ⟨_, _, same⟩ := Option.map_eq_some_iff.mp (traced_perform.mp performed).1
        exact (congrArg Prod.snd same).symm
    have atT' : keys[t']? = some keys[t'] := List.getElem?_eq_getElem (length ▸ inside)
    refine ⟨t', ?_, member⟩
    rw [atT', same _ (List.mem_of_getElem? atT') key (List.mem_of_getElem? atT)]

namespace Crossed

def keys : List String := ["repository:app:pull", "repository:app:push"]

def answers (s : CacheState × Log) (t : Nat) : (op : CacheOp) → CacheAns op
  | .fetch => .returned (.ok (if t = 0 then "may pull" else "may push"))
  | op => Shared.answers s t op

/-- Both calls fetch, the first one gets into the host cache, and the second one meets it there. -/
def run : CacheRun :=
  (List.replicate 7 0 ++ List.replicate 7 1 ++ [0, 0, 0, 1, 1]).foldl
    (fun σ t => (σ.step? cacheMachine.traced answers t).getD σ) (singleStart "ghcr.io" .bearer keys)

theorem run_returned : run.returned? 1 = some (.token (.ok "may pull")) ∧
    fetches run.shared.2 = [(0, .returned (.ok "may pull")), (1, .returned (.ok "may push"))] := by
  decide +kernel

end Crossed

/-- The call that asked for the token to push gets the one to pull. -/
theorem token_crossed : ∃ σ : CacheRun, Reach cacheMachine.traced (singleStart "ghcr.io" .bearer Crossed.keys) σ ∧
    σ.Returned 1 (.token (.ok "may pull")) ∧
      ¬ FetchedFor Crossed.keys σ.shared.2 "repository:app:push" "may pull" := by
  obtain ⟨returned, fetched⟩ := Crossed.run_returned
  refine ⟨Crossed.run, Pool.turns_reach _ _, Pool.returned?_eq_some.mp returned, ?_⟩
  rintro ⟨t, asked, member⟩
  have seen := mem_fetches member
  rw [fetched] at seen
  have first : t = 0 := by simpa using seen
  subst first
  exact absurd asked (by decide)

end OrasGo.Auth
