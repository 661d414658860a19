import LoopInvariant.Session.Bounded
import LoopInvariant.Session.Piped
import LoopInvariant.Session.Scripted
/-!
# Sessions of any kind

Which kind of session is used may be known only when the program runs.
-/

namespace LoopInvariant

/-- A session of one of the kinds. -/
inductive AnySession where
  | bounded (s : BoundedSession)
  | piped (s : PipedSession)
  | scripted (s : ScriptedSession)

namespace AnySession

/-- Do what belongs to the kind of the session. -/
def onEach {α : Type} (b : SessionM BoundedSession α) (p : SessionM PipedSession α)
    (q : SessionM ScriptedSession α) : SessionM AnySession α
  | .bounded s =>
    let (r, s) := b s
    (r, .bounded s)
  | .piped s =>
    let (r, s) := p s
    (r, .piped s)
  | .scripted s =>
    let (r, s) := q s
    (r, .scripted s)

open Session in
instance : Session AnySession where
  push := onEach push push push
  pop := onEach pop pop pop
  declare := fun xs => onEach (declare xs) (declare xs) (declare xs)
  assert := fun t => onEach (assert t) (assert t) (assert t)
  checkSat := onEach checkSat checkSat checkSat
  model := fun xs => onEach (model xs) (model xs) (model xs)
  cancel
    | .bounded s => .bounded (cancel s)
    | .piped s => .piped (cancel s)
    | .scripted s => .scripted (cancel s)
  isCanceled
    | .bounded s => isCanceled s
    | .piped s => isCanceled s
    | .scripted s => isCanceled s

/-- What the session sent to a solver, as far as the solver had asked for it. -/
def sent : AnySession → List String
  | .piped s => s.pipe.peer.sent
  | _ => []

end AnySession

end LoopInvariant
