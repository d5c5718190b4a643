import OrasGo.Copy.State

/-! Copying a blob with and without the attempt to mount it. -/

namespace OrasGo.Copy
open Interleaving Syncutil

/-- What the copy of one blob meets: the callbacks and both ends answer in any way, and the
destination can mount the blob from none of the repositories. -/
structure Meets where
  preCopy : Option Error
  fetch : Option Error
  push : Option Error
  postCopy : Option Error
  onMounted : Option Error
  repository : String
  others : List String
  foreign : foreignError preCopy = true ∧ foreignError fetch = true ∧ foreignError push = true

namespace Meets

/-- The answers. A `Mount` calls `getContent` and pushes what it gets, as `blobStore.Mount` does. -/
def reply (w : Meets) : (op : Op CopyOp Item) → Ans CopyAns op
  | .user (.preCopy _) => (false, w.preCopy)
  | .user (.fetch _) => w.fetch
  | .user (.push _) | .user (.mountPush _) => w.push
  | .user (.callback .postCopy _) => w.postCopy
  | .user (.callback .onMounted _) => w.onMounted
  | .user (.callback _ _) => none
  | .user (.mountFrom _) => .ok (w.repository :: w.others)
  | .user (.mount _ _) => .getContent
  | .user (.tryCommit _) => true
  | .user (.closeDone _) => ()
  | .user (.selectDone _) => none
  | .user (.dstExists _) | .user (.cacheExists _) => .ok false
  | .user (.findSuccessors _) => .ok []
  | .regionStart | .spawn _ _ | .load _ | .wait _ => none
  | .regionEnd | .compareAndSwap _ _ | .report _ _ => ()
  | .withContext => 0

end Meets

/-- The callback that an operation is. -/
def callback? : Op CopyOp Item → Option Callback
  | .user (.preCopy _) => some .preCopy
  | .user (.callback which _) => some which
  | _ => none

/-- The origin of the first `CopyError` in the chain of an error. -/
def copyErrorOrigin : Error → Option CopyErrorOrigin
  | .copyError _ origin _ => some origin
  | .wrap _ cause => copyErrorOrigin cause
  | _ => none

@[simp] theorem copyErrorOrigin_newCopyError (op : String) (origin : CopyErrorOrigin) (err : Error) :
    copyErrorOrigin (Error.newCopyError op origin err) = some origin := rfl

/-- What can be seen of the copy of a blob: the callbacks in their order, and nil or an error
with its origin. -/
structure Observed where
  callbacks : List Callback
  result : Option (Option CopyErrorOrigin)
  deriving DecidableEq

/-- What a program does with the callbacks, and what it returns. -/
def Meets.runs (w : Meets) (program : Worker (Option Error)) (seen : List Callback) : Option Error × List Callback :=
  program.run (fun seen op => (w.reply op, seen ++ (callback? op).toList)) seen

def Meets.outcome (w : Meets) (program : Worker (Option Error)) : Observed where
  callbacks := (w.runs program []).2
  result := (w.runs program []).1.map copyErrorOrigin

/-- When a blob is copied with the attempt to mount it as it is without. -/
def Meets.Alike (w : Meets) : Prop :=
  match w.preCopy with
  | some err => copyErrorOrigin err = some .destination
  | none => w.fetch = none ∧ ∀ err, w.push = some err → Error.is .alreadyExists err = false

/-- What `doCopyNode` returns. -/
def Meets.copied (w : Meets) : Option Error :=
  match w.fetch with
  | some err => some (Error.newCopyError "Fetch" .source err)
  | none =>
    if w.push.all (Error.is .alreadyExists) then none
    else w.push.map (Error.newCopyError "Push" .destination)

/-- What the last `Mount` returns, which gets the content and pushes it. -/
def Meets.mounted (w : Meets) : Option Error :=
  match w.preCopy, w.fetch with
  | some err, _ | none, some err => some (.wrap "cannot read source blob" err)
  | none, none => w.push

section Paths
variable (w : Meets) (desc : Descriptor) (seen : List Callback)

theorem runs_bind (p : Worker (Option Error)) (next : Option Error → Worker (Option Error)) :
    w.runs (p >>= next) seen = w.runs (next (w.runs p seen).1) (w.runs p seen).2 :=
  Prog.run_bind _ p next seen

theorem runs_postCopy : w.runs (ask (.callback .postCopy desc)) (seen ++ [.preCopy]) =
    (w.postCopy, seen ++ [.preCopy, .postCopy]) := by
  simp [Meets.runs, ask, call, Prog.perform, Meets.reply, callback?]

theorem runs_doCopyNode : w.runs (doCopyNode desc) seen = (w.copied, seen) := by
  simp only [Meets.runs, Meets.copied, doCopyNode, ask, call, Prog.perform_bind, Prog.run_call, Meets.reply]
  cases fetched : w.fetch with
  | some err => simp [callback?]
  | none =>
    simp only [Prog.run_call]
    cases pushed : w.push with
    | none => simp [callback?]
    | some err => by_cases present : Error.is .alreadyExists err = true <;> simp [callback?, present]

theorem runs_copyNode : w.runs (copyNode desc) seen =
    match w.preCopy, w.copied with
    | some err, _ => (if err = .skipNode then none else some err, seen ++ [.preCopy])
    | none, some err => (some err, seen ++ [.preCopy])
    | none, none => (w.postCopy, seen ++ [.preCopy, .postCopy]) := by
  change w.runs (match w.preCopy with
    | some err => if err = .skipNode then return none else return some err
    | none => doCopyNode desc >>= fun copied => match copied with
      | some err => return some err
      | none => ask (.callback .postCopy desc)) (seen ++ [.preCopy]) = _
  cases pre : w.preCopy with
  | some err => by_cases skip : err = .skipNode <;> simp [skip, Meets.runs]
  | none =>
    rw [runs_bind, runs_doCopyNode]
    cases w.copied with
    | some err => rfl
    | none => exact runs_postCopy w desc seen

theorem is_skipSource_wrap (message : String) (err : Error) :
    Error.is .skipSource (.wrap message err) = Error.is .skipSource err := by
  simp [Error.is]

theorem mounted_foreign (err : Error) (ended : w.mounted = some err) : Error.is .skipSource err = false := by
  obtain ⟨pre, fetched, pushed⟩ := w.foreign
  cases first : w.preCopy with
  | some cause =>
    simp only [Meets.mounted, first, Option.some.injEq] at ended
    simpa [foreignError, first, ← ended, is_skipSource_wrap] using pre
  | none =>
    cases second : w.fetch with
    | some cause =>
      simp only [Meets.mounted, first, second, Option.some.injEq] at ended
      simpa [foreignError, second, ← ended, is_skipSource_wrap] using fetched
    | none =>
      simp only [Meets.mounted, first, second] at ended
      simpa [foreignError, ended] using pushed

theorem runs_mount_last (repository : String) : w.runs (mountLoop desc [repository]) seen =
    w.runs (afterMount (ask (.callback .postCopy desc)) w.mounted) (seen ++ [.preCopy]) := by
  simp only [Meets.runs, mountLoop, getContent, List.isEmpty_nil, if_true, ask, call, Prog.perform_bind,
    Prog.call_bind, Prog.run_call, Meets.reply]
  cases pre : w.preCopy with
  | some err => simp [Meets.mounted, pre, callback?]
  | none =>
    simp only [Prog.perform_bind, Prog.run_call]
    cases fetched : w.fetch with
    | some | none => simp [Meets.mounted, pre, fetched, callback?]

theorem runs_mount_next (repository next : String) (rest : List String) :
    w.runs (mountLoop desc (repository :: next :: rest)) seen = w.runs (mountLoop desc (next :: rest)) seen := by
  rw [mountLoop]
  simp [Meets.runs, getContent, ask, call, Meets.reply, callback?, afterMount, Error.is]

theorem runs_mountLoop (repository : String) (rest : List String) :
    w.runs (mountLoop desc (repository :: rest)) seen =
    match w.mounted with
    | some err => (some (Error.newCopyError "Mount" .destination err), seen ++ [.preCopy])
    | none => (w.postCopy, seen ++ [.preCopy, .postCopy]) := by
  induction rest generalizing repository with
  | cons next rest ih => rw [runs_mount_next, ih]
  | nil =>
    rw [runs_mount_last]
    cases ended : w.mounted with
    | some err =>
      simp [afterMount, mounted_foreign w err ended, Meets.runs]
    | none => exact runs_postCopy w desc seen

theorem runs_mountOrCopyNode (blob : isManifest desc = false) :
    w.runs (mountOrCopyNode { mountFrom := true, mounter := true } desc) seen =
    w.runs (mountLoop desc (w.repository :: w.others)) seen := by
  simp [Meets.runs, mountOrCopyNode, blob, ask, call, Meets.reply, callback?]

end Paths

/-- Mounting makes no difference exactly where the blob reaches the destination or its push fails,
and where `PreCopy` fails with an error of the destination. A `SkipNode` of `PreCopy`, a failed
fetch and a push of what already exists all come back as an error of the destination. -/
theorem mountOrCopyNode_alike_iff (w : Meets) (desc : Descriptor) (blob : isManifest desc = false) :
    w.outcome (mountOrCopyNode { mountFrom := true, mounter := true } desc) = w.outcome (copyNode desc) ↔ w.Alike := by
  simp only [Meets.outcome, runs_mountOrCopyNode w desc [] blob, runs_mountLoop, runs_copyNode, Observed.mk.injEq]
  cases pre : w.preCopy with
  | some err =>
    by_cases skip : err = .skipNode
    · simp [Meets.Alike, Meets.mounted, pre, skip, copyErrorOrigin]
    · simp [Meets.Alike, Meets.mounted, pre, skip, eq_comm]
  | none =>
    cases fetched : w.fetch with
    | some err => simp [Meets.Alike, Meets.mounted, Meets.copied, pre, fetched]
    | none =>
      cases pushed : w.push with
      | none => simp [Meets.Alike, Meets.mounted, Meets.copied, pre, fetched, pushed]
      | some err =>
        by_cases present : Error.is .alreadyExists err = true <;>
          simp [Meets.Alike, Meets.mounted, Meets.copied, pre, fetched, pushed, present]

namespace Mounting

/-- A blob, and one repository to mount it from. -/
def layer : Descriptor := { mediaType := "application/octet-stream", digest := "sha256:aa", size := 1 }

def meets (preCopy fetch push : Option Error)
    (foreign : foreignError preCopy = true ∧ foreignError fetch = true ∧ foreignError push = true) : Meets where
  preCopy := preCopy
  fetch := fetch
  push := push
  postCopy := none
  onMounted := none
  repository := "library/base"
  others := []
  foreign := foreign

def skips : Meets := meets (some .skipNode) none none (by decide)

def loses : Meets := meets none (some .notFound) none (by decide)

def repeats : Meets := meets none none (some .alreadyExists) (by decide)

def arrives : Meets := meets none none none (by decide)

/-- A skipped node, a failed fetch and a push of what already exists. -/
theorem mountOrCopyNode_differs :
    skips.outcome (copyNode layer) = ⟨[.preCopy], none⟩ ∧
    skips.outcome (mountOrCopyNode { mountFrom := true, mounter := true } layer) =
      ⟨[.preCopy], some (some .destination)⟩ ∧
    loses.outcome (copyNode layer) = ⟨[.preCopy], some (some .source)⟩ ∧
    loses.outcome (mountOrCopyNode { mountFrom := true, mounter := true } layer) =
      ⟨[.preCopy], some (some .destination)⟩ ∧
    repeats.outcome (copyNode layer) = ⟨[.preCopy, .postCopy], none⟩ ∧
    repeats.outcome (mountOrCopyNode { mountFrom := true, mounter := true } layer) =
      ⟨[.preCopy], some (some .destination)⟩ := by
  decide +kernel

theorem mountOrCopyNode_alike_arrives : isManifest layer = false ∧ arrives.Alike ∧
    arrives.outcome (mountOrCopyNode { mountFrom := true, mounter := true } layer) = arrives.outcome (copyNode layer) :=
  have blob : isManifest layer = false := by decide
  have alike : arrives.Alike := ⟨rfl, by intro err pushed; cases pushed⟩
  ⟨blob, alike, (mountOrCopyNode_alike_iff arrives layer blob).mpr alike⟩

end Mounting

end OrasGo.Copy
