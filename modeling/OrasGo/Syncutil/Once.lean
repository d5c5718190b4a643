import OrasGo.Base.Program
import OrasGo.Descriptor

/-! `syncutil.Once`. -/

namespace OrasGo.Syncutil
open Interleaving

/-- How the function given to `Do` ends. -/
inductive Outcome (V : Type)
  | returned (result : Except Error V)
  | panicked
  deriving DecidableEq

/-- What the `select` of `Do` finds: the token of the channel, the channel closed with the
result of an earlier call, or the end of the context. -/
inductive Received (V : Type)
  | inProgress
  | finished (result : Except Error V)
  | cancelled (err : Error)
  deriving DecidableEq

/-- What `Do` returns, unless the function panics. -/
structure Done (V : Type) where
  first : Bool
  result : Except Error V

/-- `err == context.Canceled || err == context.DeadlineExceeded`. -/
def isContextError (err : Error) : Bool := err == .contextCanceled || err == .contextDeadlineExceeded

section
variable {Op : Type} {Ans : Op → Type} {V : Type}
variable (receive : Prog Op Ans (Received V)) (release : Prog Op Ans Unit)
  (finish : Except Error V → Prog Op Ans Unit)

/-- What `Do` does with the outcome of the function: it gives the token back, or it keeps the
result and closes the channel. -/
def settle : Outcome V → Prog Op Ans (Option (Done V))
  | .panicked => do
    release
    return none
  | .returned (.ok value) => do
    finish (.ok value)
    return some ⟨true, .ok value⟩
  | .returned (.error err) => do
    if isContextError err then
      release
      return some ⟨false, .error err⟩
    else
      finish (.error err)
      return some ⟨true, .error err⟩

/-- `Once.Do`; `none` when the function panics. -/
def onceDo (f : Prog Op Ans (Outcome V)) : Prog Op Ans (Option (Done V)) := do
  match ← receive with
  | .cancelled err => return some ⟨false, .error err⟩
  | .finished result => return some ⟨false, result⟩
  | .inProgress => f >>= settle release finish

end

end OrasGo.Syncutil
