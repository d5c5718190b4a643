import OrasGo.File.Progress
import OrasGo.File.Sharing

/-! Pushes that go well restore the named file and index their manifests; a push that finds the name
taken since it looked fails. -/

namespace OrasGo.File
open Interleaving
variable {sc : Scene}

theorem matches_of_readAll {cd : Codec} {desc : Descriptor} {content : Bytes} (read : (readAll cd content desc).toBool = true) :
    Matches cd desc content := by
  unfold readAll at read
  split at read
  · cases read
  split at read
  · cases read
  split at read
  · cases read
  split at read
  · cases read
  split at read
  · cases read
  split at read
  · rename_i _ allocated available _ _ verified
    exact ⟨by omega, by omega, available, verified⟩
  · cases read

theorem calm_sound (proper : sc.Proper) : Sound (callGhost sc) (fun _ => callPost) sc.calmMachine (Inv sc) := by
  intro s ghosts t call l op a s' spawned inv found pre performed
  obtain ⟨calm, performed⟩ := Option.ite_none_right_eq_some.mp performed
  obtain ⟨s₁, moved, same⟩ := Option.map_eq_some_iff.mp performed
  cases same
  suffices kept : ∃ l', (callGhost sc call).next op a l l' ∧ Inv sc s' (ghosts.set t (call, l')) by
    obtain ⟨l', next, inv'⟩ := kept
    exact .move l' next inv'
  obtain ⟨mine, locks, facts⟩ := inv.calls t call l found
  have still : Inv sc s (ghosts.set t (call, l)) := by rwa [set_same found]
  cases op with
  | isClosedSet =>
    obtain ⟨closed, rfl⟩ := of_ite_some moved
    exact ⟨l, ⟨closed.trans inv.opened, rfl⟩, still⟩
  | nameExists name =>
    obtain ⟨⟨_, known⟩, rfl⟩ := of_ite_some moved
    refine ⟨_, ⟨fun same saved => ?_, rfl⟩, inv.note found rfl rfl rfl
      { facts with restored := fun flag => ?_ }⟩
    · rw [known, same]
      exact (facts.saved saved).2 (same ▸ pre)
    · rcases Bool.or_eq_true_iff.mp flag with before | new
      · exact facts.restored before
      · obtain ⟨yes, same⟩ := Bool.and_eq_true_iff.mp new
        rw [← of_decide_eq_true same, ← known, yes]
  | lock name =>
    obtain ⟨⟨unheld, known⟩, rfl⟩ := of_ite_some moved
    have free : a = false := of_decide_eq_true calm
    exact ⟨_, ⟨free, rfl⟩, inv.acquire found pre.2 pre.1 unheld (known.symm.trans free)⟩
  | unlock name pushed =>
    obtain ⟨held, rfl⟩ := of_ite_some moved
    obtain ⟨stored, rfl⟩ := pre
    exact ⟨_, rfl, inv.release found stored⟩
  | stat path =>
    obtain rfl : a = .absent := of_decide_eq_true calm
    obtain ⟨_, rfl⟩ := of_ite_some moved
    exact ⟨l, ⟨rfl, rfl⟩, still⟩
  | openFile path =>
    obtain rfl : a = .present := of_decide_eq_true calm
    obtain ⟨_, rfl⟩ := Option.ite_none_left_eq_some.mp moved |>.imp_right Option.some.inj
    exact ⟨l, ⟨rfl, rfl⟩, still⟩
  | mkdirAll | close =>
    cases moved
    exact ⟨l, ⟨Option.isNone_iff_eq_none.mp calm, rfl⟩, still⟩
  | create path =>
    obtain rfl : a = none := Option.isNone_iff_eq_none.mp calm
    cases moved
    obtain ⟨⟨name, pushing, rfl⟩, _⟩ := pre
    obtain ⟨used, held, _⟩ := locks.pushing name pushing
    refine ⟨_, ⟨rfl, rfl⟩, inv.begin found (fun content complete => ?_) (fun t' call' l₂ content other found' writing => ?_)
      ?_ (.inl ⟨name, pushing, rfl⟩)⟩
    · exact inv.open found pushing (complete.closed name used rfl)
    · obtain ⟨_, locks', _⟩ := inv.calls t' call' l₂ found'
      rcases (locks'.writing _ content writing).2 with ⟨name', pushing', same⟩ | temporary
      · obtain ⟨used', held', _⟩ := locks'.pushing name' pushing'
        cases proper.apart name used name' used' same
        cases held.symm.trans held'
        exact other rfl
      · exact temporary name used rfl
    · by_contra stored
      obtain ⟨name', stored⟩ := Option.ne_none_iff_exists'.mp stored
      cases pushing.symm.trans (locks.stored name' stored).2.1
  | createTemp =>
    cases a with
    | error err => cases calm
    | ok path =>
      obtain ⟨fresh, rfl⟩ := of_ite_some moved
      obtain ⟨⟨name, pushing, _⟩, _⟩ := pre
      have temporary : ∀ name ∈ sc.names, sc.opts.absPath name ≠ path := by simpa [Scene.calm] using calm
      refine ⟨_, rfl, inv.begin found (fun content complete => ?_) (fun t' call' l₂ content other found' writing => ?_)
        ?_ (.inr temporary)⟩
      · cases fresh.symm.trans complete.file
      · cases fresh.symm.trans ((inv.calls t' call' l₂ found').2.1.writing path content writing).1
      · by_contra stored
        obtain ⟨name', stored⟩ := Option.ne_none_iff_exists'.mp stored
        cases pushing.symm.trans (locks.stored name' stored).2.1
  | read path =>
    obtain ⟨content, source⟩ := pre
    cases a with
    | error err => cases calm
    | ok bytes =>
      obtain ⟨file, rfl⟩ := of_ite_some moved
      cases (facts.source path content source).file.symm.trans file
      exact ⟨l, ⟨source, rfl⟩, still⟩
  | write path content =>
    obtain ⟨n, err⟩ := a
    obtain rfl : err = none := Option.isNone_iff_eq_none.mp calm
    obtain ⟨length, rfl⟩ := of_ite_some moved
    obtain ⟨file, own⟩ := locks.writing path [] pre
    have whole : content.take n ++ ((s.files path).getD []).drop n = content := by
      rw [file, show n = content.length from length, List.take_length]
      simp
    rw [whole]
    refine ⟨_, ⟨rfl, rfl⟩, inv.begin found (fun content' complete => ?_) (fun t' call' l₂ content' other found' writing => ?_)
      ?_ own⟩
    · exact complete.unwritten _ (List.mem_of_getElem? found) [] pre
    · exact inv.apart t t' call call' l l₂ path [] content' (Ne.symm other) found found' pre writing
    · by_contra stored
      obtain ⟨name', stored⟩ := Option.ne_none_iff_exists'.mp stored
      cases (pre : l.writing = _).symm.trans (locks.stored name' stored).2.2
  | extractTarGzip target name gzip checksum =>
    obtain ⟨err, written⟩ := a
    obtain ⟨nil, fresh⟩ := Bool.and_eq_true_iff.mp calm
    cases moved
    exact ⟨l, ⟨Option.isNone_iff_eq_none.mp nil, rfl⟩, inv.extract found (by simpa using fresh)⟩
  | load digest =>
    obtain ⟨known, rfl⟩ := of_ite_some moved
    cases a with
    | some path =>
      obtain ⟨content, complete, settles⟩ := inv.recorded digest path known.symm
      refine ⟨_, ⟨content, settles, rfl⟩, inv.note found rfl rfl rfl
        { facts with source := fun path' content' same => ?_ }⟩
      obtain ⟨rfl, rfl⟩ := Prod.mk.inj (Option.some.inj same)
      exact complete
    | none =>
      let keys := (if digest = sc.layer.digest then [fromOCI sc.layer] else []) ++
        if l.saved = true ∧ digest = call.expected.digest then [fromOCI call.expected] else []
      refine ⟨_, ⟨keys, fun same => ?_, fun saved same => ?_, rfl⟩, inv.note found rfl rfl rfl
        { facts with inFallback := fun k member => ?_ }⟩
      · simp [keys, same]
      · simp [keys, saved, same]
      · rcases List.mem_append.mp member with isLayer | isManifest
        · obtain ⟨rfl, same⟩ : digest = sc.layer.digest ∧ k = fromOCI sc.layer := by simpa using isLayer
          exact same ▸ inv.layer.resolve_left (not_not_intro known.symm)
        · obtain ⟨⟨saved, rfl⟩, same⟩ : (l.saved = true ∧ digest = call.expected.digest) ∧ k = fromOCI call.expected := by
            simpa using isManifest
          exact same ▸ (facts.saved saved).1.resolve_left (not_not_intro known.symm)
  | store digest path =>
    cases moved
    obtain ⟨name, content, pushing, writing, settles, own⟩ := pre
    exact ⟨_, rfl, inv.record proper found pushing writing settles own⟩
  | fallbackFetch desc =>
    cases a with
    | ok content =>
      obtain ⟨kept, rfl⟩ := of_ite_some moved
      exact ⟨l, ⟨inv.fallback desc content kept, rfl⟩, still⟩
    | error err =>
      obtain ⟨missing, rfl⟩ := of_ite_some moved
      exact ⟨l, ⟨calm, fun member => facts.inFallback _ member (missing calm), rfl⟩, still⟩
  | fallbackPush desc content =>
    obtain rfl : a = none := Option.isNone_iff_eq_none.mp calm
    obtain ⟨⟨_, read⟩, rfl⟩ := of_ite_some moved
    exact ⟨_, ⟨rfl, rfl⟩, inv.keep found (matches_of_readAll read)⟩
  | indexNode node nodes =>
    cases moved
    obtain ⟨rfl, rfl⟩ := pre
    exact ⟨_, rfl, inv.index proper found⟩

/-- The store that the pushes find: open and with no lock held, its records lead to files with the
content of their digests, and the content of the layer is in one of them or in the fallback storage. -/
structure Scene.Ready (sc : Scene) (s : State) : Prop where
  opened : s.closed = false
  unheld : ∀ name, s.holder name = none
  recorded : ∀ digest path, s.digestToPath digest = some path → ∃ content, s.files path = some content ∧
    Settles sc digest content ∧ ∀ name ∈ sc.names, sc.opts.absPath name = path → s.taken name = true
  fallback : ∀ desc content, s.fallback (fromOCI desc) = some content → Matches sc.cd desc content
  layer : s.digestToPath sc.layer.digest ≠ none ∨ s.fallback (fromOCI sc.layer) ≠ none
  file : s.taken (title sc.layer) = true → ∃ content, s.files sc.path = some content ∧ IsLayer sc content

theorem layer_mem_names (proper : sc.Proper) {call : Call} (mine : call ∈ sc.calls) : title sc.layer ∈ sc.names :=
  mem_names (List.mem_flatMap.mpr ⟨call, mine, List.mem_cons_of_mem _ (proper.valid call mine).layer⟩) proper.named

variable {s : State} {σ : Pool Op Ans State Call (Option Error)}

theorem inv_start (proper : sc.Proper) (ready : sc.Ready s) : Inv sc s (sc.calls.map fun call => (call, {})) := by
  have blank {g : Call × Local} (member : g ∈ sc.calls.map fun call => (call, ({} : Local))) :
      g.1 ∈ sc.calls ∧ g.2 = {} := by
    obtain ⟨call, mine, rfl⟩ := List.mem_map.mp member
    exact ⟨mine, rfl⟩
  have complete {path : String} {content : Bytes} (file : s.files path = some content)
      (taken : ∀ name ∈ sc.names, sc.opts.absPath name = path → s.taken name = true) :
      Complete sc s (sc.calls.map fun call => (call, {})) path content := by
    refine ⟨file, fun name used same => .inl (taken name used same), fun g member content' writing => ?_⟩
    rw [(blank member).2] at writing
    cases writing
  constructor
  case opened => exact ready.opened
  case calls =>
    intro t call l found
    obtain ⟨mine, rfl⟩ := blank (List.mem_of_getElem? found)
    exact ⟨mine, ⟨by simp, by simp, by simp⟩, ⟨by simp, by simp, by simp, by simp, by simp, by simp⟩⟩
  case apart =>
    intro t t' call call' l l' path content content' _ found _ writing
    obtain ⟨_, rfl⟩ := blank (List.mem_of_getElem? found)
    cases writing
  case recorded =>
    intro digest path stored
    obtain ⟨content, file, settles, taken⟩ := ready.recorded digest path stored
    exact ⟨content, complete file taken, settles⟩
  case fallback => exact ready.fallback
  case layer => exact ready.layer
  case file =>
    rintro (taken | ⟨g, member, stored⟩)
    · obtain ⟨content, file, isLayer⟩ := ready.file taken
      refine ⟨content, complete file fun name used same => ?_, isLayer⟩
      obtain ⟨desc, inPlay, rfl⟩ := List.mem_map.mp (List.mem_filter.mp used).1
      obtain ⟨call, mine, _⟩ := List.mem_flatMap.mp inPlay
      rwa [proper.apart _ used _ (layer_mem_names proper mine) same]
    · rw [(blank member).2] at stored
      cases stored

theorem calm_perform {s' : State} {t n : Nat} {op : Op} {a : Ans op}
    {spawned : List (Thread Op Ans Call (Option Error))}
    (performed : sc.calmMachine.perform s t n op a = some (s', spawned)) :
    (machine sc.cd).perform s t n op a = some (s', spawned) :=
  (Option.ite_none_right_eq_some.mp performed).2

theorem calm_reach {σ' : Pool Op Ans State Call (Option Error)} (reach : Reach sc.calmMachine σ σ') :
    Reach (machine sc.cd) σ σ' := by
  refine Relation.ReflTransGen.mono (fun σ σ' step => ?_) _ _ reach
  cases step with
  | env moved => exact moved.elim
  | thread t moved =>
    cases moved with
    | answer found performed => exact .thread t (.answer found (calm_perform performed))

theorem calm_outline (proper : sc.Proper) (ready : sc.Ready s)
    (reach : Reach sc.calmMachine (start sc.opts sc.cd s sc.calls) σ) :
    Outline (callGhost sc) (fun _ => callPost) (Inv sc) σ := by
  refine Outline.reach (calm_sound proper) (fun _ _ _ _ => False.elim) ⟨_, ?_, inv_start proper ready⟩ reach
  simp only [start, List.forall₂_map_left_iff, List.forall₂_map_right_iff, List.forall₂_same]
  exact fun call mine => ⟨rfl, wp_storePush proper mine⟩

theorem push_threads {opts : Options} {cd : Codec} {calls : List Call}
    (reach : Reach (machine cd) (start opts cd s calls) σ) {t : Nat} {call : Call} (atT : calls[t]? = some call) :
    ∃ prog, σ.threads[t]? = some ⟨call, prog⟩ := by
  have labels : σ.threads.map Thread.label = calls := by
    refine (Reach.labels ?_ reach).trans ?_
    · intro s t n op a s' spawned performed
      obtain ⟨_, _, same⟩ := Option.map_eq_some_iff.mp performed
      exact (congrArg Prod.snd same).symm
    · simp [start, Function.comp_def]
  rw [← labels, List.getElem?_map] at atT
  obtain ⟨⟨label, prog⟩, found, rfl⟩ := Option.map_eq_some_iff.mp atT
  exact ⟨prog, found⟩

/-- A push has done what it is for: its manifest is in the graph as a predecessor of the layer, and the
named file holds the content of the layer. -/
structure Scene.Pushed (sc : Scene) (s : State) (call : Call) : Prop where
  indexed : fromOCI call.expected ∈ s.graph.nodes
  predecessor : fromOCI call.expected ∈ s.graph.predecessorSet (fromOCI sc.layer)
  restored : ∃ content, s.files sc.path = some content ∧ IsLayer sc content

/-- In every run that goes well, however the pushes interleave, a push that has returned has returned
nil and done what it is for; and the run can only end when all of them have returned. -/
theorem push_shared_layer (proper : sc.Proper) {s : State} (ready : sc.Ready s) :
    Acc (fun σ' σ => Step (machine sc.cd) σ σ') (start sc.opts sc.cd s sc.calls) ∧
    ∀ σ, Reach sc.calmMachine (start sc.opts sc.cd s sc.calls) σ →
      (∀ t call, sc.calls[t]? = some call → ∀ result, σ.Returned t result → result = none ∧ sc.Pushed σ.shared call) ∧
      ((∀ σ', ¬ Step (machine sc.cd) σ σ') → ∀ t call, sc.calls[t]? = some call → σ.Returned t none) := by
  refine ⟨push_terminates s sc.calls, fun σ reach => ?_⟩
  have outcome t call (atT : sc.calls[t]? = some call) result (returned : σ.Returned t result) :
      result = none ∧ sc.Pushed σ.shared call := by
    obtain ⟨ghosts, fits, inv⟩ := calm_outline proper ready reach
    obtain ⟨label, found⟩ := returned
    obtain ⟨prog, found'⟩ := push_threads (calm_reach reach) atT
    cases found.symm.trans found'
    obtain ⟨l, atGhost, isNil, restored, indexed⟩ := ghost_of_thread fits found
    obtain ⟨_, _, facts⟩ := inv.calls t call l atGhost
    obtain ⟨content, complete, isLayer⟩ := inv.file (.inl (facts.restored restored))
    exact ⟨isNil, (facts.indexed indexed).1, (facts.indexed indexed).2, content, complete.file, isLayer⟩
  refine ⟨outcome, fun still t call atT => ?_⟩
  obtain ⟨prog, found⟩ := push_threads (calm_reach reach) atT
  cases prog with
  | ret result =>
    cases (outcome t call atT result ⟨call, found⟩).1
    exact ⟨call, found⟩
  | call op next =>
    obtain ⟨σ', step⟩ := push_progress ready.unheld (calm_reach reach) ⟨call, op, next, found⟩
    exact absurd step (still σ')

/-! Two images with the same layer, whose content is in the store under another name. -/

namespace Shared

def greeting : Descriptor :=
  { Sample.hello with annotations := (∅ : Annotations).insert annotationTitle "hello.txt" }

def first : Descriptor where
  mediaType := Ocispec.mediaTypeImageManifest
  digest := "sha256:fa4fb0f5487229b279458ee6d49dafe1e050d38e4c129a3567e0d0d6f2c498df"
  size := 382

def second : Descriptor where
  mediaType := Ocispec.mediaTypeImageManifest
  digest := "sha256:057dc4f681dd3df6529567878f59b4ee6166b132ca955f4de1447617698fbb58"
  size := 375

/-- The JSON text of `schemaVersion` 2, the configuration and the layer. -/
def firstBytes : Bytes :=
  Sample.imageHead ++
  Bytes.ofNat 42 0x73697a65223a327d2c226c6179657273223a5b7b226d6564696154797065223a226170706c6963617469 ++
  Bytes.ofNat 42 0x6f6e2f6f637465742d73747265616d222c22646967657374223a227368613235363a3263663234646261 ++
  Bytes.ofNat 42 0x356662306133306532366538336232616335623965323965316231363165356331666137343235653733 ++
  Bytes.ofNat 42 0x3034333336323933386239383234222c2273697a65223a352c22616e6e6f746174696f6e73223a7b226f ++
  Bytes.ofNat 42 0x72672e6f70656e636f6e7461696e6572732e696d6167652e7469746c65223a2268656c6c6f2e74787422 ++
  Bytes.ofNat 4 0x7d7d5d7d

/-- The same with the empty configuration. -/
def secondBytes : Bytes :=
  Sample.artifactHead ++
  Bytes.ofNat 42 0x7d2c226c6179657273223a5b7b226d6564696154797065223a226170706c69636174696f6e2f6f637465 ++
  Bytes.ofNat 42 0x742d73747265616d222c22646967657374223a227368613235363a326366323464626135666230613330 ++
  Bytes.ofNat 42 0x653236653833623261633562396532396531623136316535633166613734323565373330343333363239 ++
  Bytes.ofNat 42 0x33386239383234222c2273697a65223a352c22616e6e6f746174696f6e73223a7b226f72672e6f70656e ++
  Bytes.ofNat 39 0x636f6e7461696e6572732e696d6167652e7469746c65223a2268656c6c6f2e747874227d7d5d7d

def hashes : List (Bytes × String) :=
  [(firstBytes, "fa4fb0f5487229b279458ee6d49dafe1e050d38e4c129a3567e0d0d6f2c498df"),
    (secondBytes, "057dc4f681dd3df6529567878f59b4ee6166b132ca955f4de1447617698fbb58"),
    (Sample.configBytes, "44136fa355b3678a1146ad16f7e8649e94fb4fc21fe77e8310c060f61caaff8a"),
    (Sample.helloBytes, "2cf24dba5fb0a30e26e83b2ac5b9e29e1b161e5c1fa7425e73043362938b9824")]

def manifests : List (Bytes × Manifest) :=
  [(firstBytes, { config := Sample.config, layers := [greeting] }),
    (secondBytes, { config := Sample.emptyConfig, layers := [greeting] })]

def scene : Scene where
  opts := { absPath := ("/work/" ++ ·), dir := fun _ => "/work", escapes := fun _ => false }
  cd := .ofTable hashes manifests []
  calls := [⟨first, firstBytes⟩, ⟨second, secondBytes⟩]
  layer := greeting

def store : State where
  taken name := name = "greeting.txt"
  digestToPath digest := if digest = Sample.hello.digest then some "/work/greeting.txt" else none
  files path := if path = "/work/greeting.txt" then some Sample.helloBytes else none

/-- Nothing fails. -/
def answers (s : State) (_ : Nat) : (op : Op) → Ans op
  | .isClosedSet => s.closed
  | .nameExists name | .lock name => s.taken name
  | .unlock _ _ | .store _ _ | .indexNode _ _ => ()
  | .stat path | .openFile path => if s.files path = none then .absent else .present
  | .mkdirAll _ | .create _ | .close _ | .fallbackPush _ _ => none
  | .createTemp => .ok "/tmp/archive"
  | .read path => (s.files path).elim (.error .notFound) .ok
  | .write _ content => (content.length, none)
  | .extractTarGzip _ _ _ _ => (none, [])
  | .load digest => s.digestToPath digest
  | .fallbackFetch desc => (s.fallback (fromOCI desc)).elim (.error .notFound) .ok

def begin : Pool Op Ans State Call (Option Error) := start scene.opts scene.cd store scene.calls

/-- The two calls take turns. -/
def raced : Pool Op Ans State Call (Option Error) := begin.rounds (machine scene.cd) answers 40

/-- One call after the other. -/
def inTurn : Pool Op Ans State Call (Option Error) :=
  (List.replicate 40 0 ++ List.replicate 40 1).foldl (fun σ t => (σ.step? scene.calmMachine answers t).getD σ) begin

def raceError : Error :=
  .wrap "failed to restore duplicated file"
    (.wrap "\"hello.txt\": application/octet-stream" (.wrap "hello.txt" errDuplicateName))

theorem raced_returned : raced.returned? 0 = some none ∧ raced.returned? 1 = some (some raceError) ∧
    fromOCI second ∉ raced.shared.graph.nodes := by
  decide +kernel

theorem inTurn_returned : inTurn.returned? 0 = some none ∧ inTurn.returned? 1 = some none := by
  decide +kernel

theorem proper : scene.Proper := by
  have known : ∀ desc ∈ scene.descs, desc.digest ≠ Digest.algorithm desc.digest ++ ":" ++ "" ∧
      ∀ entry ∈ hashes, desc.digest = Digest.algorithm desc.digest ++ ":" ++ entry.2 →
        (entry.1.length : Int) = desc.size := by decide +kernel
  have identified : ∀ call ∈ scene.calls, call.expected ∈ scene.descs ∧
      ∀ entry ∈ hashes, call.expected.digest = Digest.algorithm call.expected.digest ++ ":" ++ entry.2 →
        entry.1 = call.content := by decide +kernel
  constructor
  case valid =>
    have sound : ∀ call ∈ scene.calls, isManifest call.expected = true ∧
        (call.content.length : Int) = call.expected.size ∧ call.expected.size ≤ maxAlloc ∧
        algorithmSize (Digest.algorithm call.expected.digest) ≠ none ∧
        scene.cd.verified call.expected.digest call.content = true ∧
        (successors scene.cd (fun _ => .ok call.content) call.expected).toBool ∧
        scene.layer ∈ call.nodes scene.cd := by decide +kernel
    intro call mine
    obtain ⟨manifest, size, allocated, algorithm, verified, decodes, layer⟩ := sound call mine
    refine ⟨manifest, ⟨size, allocated, algorithm, verified⟩, ?_, fun content verified' => ?_, layer⟩
    · rw [Call.nodes]
      split
      · assumption
      · rename_i failed
        rw [failed] at decodes
        cases decodes
    · obtain ⟨inPlay, unique⟩ := identified call mine
      obtain ⟨entry, listed, rfl, same⟩ := @ofTable_verified hashes manifests [] _ _ (known _ inPlay).1 verified'
      exact unique entry listed same
  case named => decide +kernel
  case restores => rfl
  case keeps => exact fun _ _ _ => rfl
  case sized =>
    intro desc inPlay content verified
    obtain ⟨entry, listed, rfl, same⟩ := @ofTable_verified hashes manifests [] _ _ (known desc inPlay).1 verified
    exact (known desc inPlay).2 entry listed same
  case inside => exact fun _ _ => .inr rfl
  case apart => decide +kernel
  case alone =>
    have alike : ∀ desc ∈ scene.descs, title desc = title scene.layer → desc = scene.layer := by decide +kernel
    intro desc inPlay same
    rw [alike desc inPlay same]
    exact ⟨rfl, rfl, fun unpacks => absurd unpacks.1 (by decide +kernel)⟩

theorem ready : scene.Ready store := by
  constructor
  case opened => rfl
  case unheld => exact fun _ => rfl
  case recorded =>
    intro digest path stored
    obtain ⟨rfl, rfl⟩ := of_ite_some stored
    have others : ∀ name ∈ scene.names, scene.opts.absPath name ≠ "/work/greeting.txt" := by decide +kernel
    exact ⟨Sample.helloBytes, by decide +kernel, ⟨by decide +kernel, by decide +kernel⟩,
      fun name used same => absurd same (others name used)⟩
  case fallback =>
    intro desc content kept
    cases kept
  case layer => exact .inl (by decide +kernel)
  case file => exact fun taken => absurd taken (by decide +kernel)

end Shared

/-- Both pushes see that the name is free; the one that comes second to restore it fails with the
duplicate name, and its manifest is not indexed. -/
theorem push_shared_layer_races : Shared.scene.Proper ∧ Shared.scene.Ready Shared.store ∧
    Reach (machine Shared.scene.cd) (start Shared.scene.opts Shared.scene.cd Shared.store Shared.scene.calls) Shared.raced ∧
    Shared.raced.Returned 0 none ∧ Shared.raced.Returned 1 (some Shared.raceError) ∧
    fromOCI Shared.second ∉ Shared.raced.shared.graph.nodes := by
  obtain ⟨first, second, lost⟩ := Shared.raced_returned
  exact ⟨Shared.proper, Shared.ready, Pool.rounds_reach 40 _, Pool.returned?_eq_some.mp first,
    Pool.returned?_eq_some.mp second, lost⟩

theorem push_shared_layer_inTurn :
    Reach Shared.scene.calmMachine (start Shared.scene.opts Shared.scene.cd Shared.store Shared.scene.calls) Shared.inTurn ∧
    Shared.inTurn.Returned 0 none ∧ Shared.inTurn.Returned 1 none ∧
    ∀ call ∈ Shared.scene.calls, Shared.scene.Pushed Shared.inTurn.shared call := by
  obtain ⟨first, second⟩ := Shared.inTurn_returned
  have reach : Reach Shared.scene.calmMachine _ Shared.inTurn := Pool.turns_reach _ _
  have pushed := ((push_shared_layer Shared.proper Shared.ready).2 _ reach).1
  have returned := And.intro (Pool.returned?_eq_some.mp first) (Pool.returned?_eq_some.mp second)
  refine ⟨reach, returned.1, returned.2, fun call mine => ?_⟩
  rcases List.mem_pair.mp mine with rfl | rfl
  · exact (pushed 0 _ rfl _ returned.1).2
  · exact (pushed 1 _ rfl _ returned.2).2

end OrasGo.File
