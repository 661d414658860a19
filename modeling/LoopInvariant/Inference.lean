import LoopInvariant.Concurrent.Workshop
import LoopInvariant.Session.Any
/-!
# Inference

Inference as it is configured: which solver, and how many workers.
-/

namespace LoopInvariant

open Solver

/-- Infer invariants with sessions that all start alike. Gives also the last session afterwards, if
one was started. -/
def infer {σ : Type} [Session σ] (s : ClauseSystem) (c : InferenceConfig)
    (start : Except SessionError σ) : Outcome × Option σ :=
  match start with
  | .error e => (.error (.session e), none)
  | .ok session =>
    if c.isConcurrent then
      let (o, w) := Workshop.infer s c (List.replicate (max c.teachers 1) session)
      (o, w.teachers.getLast?.map (·.session))
    else
      let (o, w) := Coordinator.infer s (c.learner s 0) session
      (o, some w.session)

/-- Which solver to use. -/
inductive Backend where
  /-- A solver that runs as a process. -/
  | family (f : Family)
  /-- The search in a box of this radius. -/
  | bounded (radius : Int64)
  deriving DecidableEq

/-- Which solver to use, and how. -/
structure SolverConfig where
  backend : Backend
  timeout : Option Nat := none
  seed : Nat := 0
  /-- Whether queries are saved. -/
  transcript : Bool := false

/-- The programs and variables of the surroundings. -/
structure Surroundings where
  programs : String → Option Peer
  environment : String → Option String

/-- Start a session. There is none if the radius has no absolute value. -/
def SolverConfig.start? (c : SolverConfig) (w : Surroundings) (s : Signature) :
    Option (Except SessionError AnySession) :=
  match c.backend with
  | .bounded radius => (BoundedSession.ofRadius? s radius).map fun x => .ok (.bounded x)
  | .family f =>
    let launch := f.session (Solver.path w.environment f.program) c.timeout c.seed
    let transcript := if c.transcript then some {} else none
    some ((PipedSession.launch w.programs launch transcript s).map .piped)

end LoopInvariant
