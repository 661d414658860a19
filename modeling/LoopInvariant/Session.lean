import LoopInvariant.Signature
import LoopInvariant.Solver.Pipe
import LoopInvariant.Term.Eval
/-!
# Solver sessions

A session keeps assertions in a stack of scopes and looks for models of them. The teacher is written
against this interface only.
-/

namespace LoopInvariant

open Solver (SolverError SatAnswer)

/-- What can go wrong with a session. -/
inductive SessionError where
  /-- The solver failed. -/
  | solver (e : SolverError)
  /-- The solver could not decide. -/
  | unknown (reason : String)
  /-- A variable has no sort. -/
  | unknownSort (name : String)
  /-- There is no scope to close. -/
  | popEmpty
  /-- There is no model. -/
  | noModel
  /-- A value was wanted of a variable that the solver does not know. -/
  | undeclared (name : String)
  /-- The session was canceled. -/
  | canceled
  deriving DecidableEq

namespace SessionError

/-- The message of an error. -/
def message : SessionError → String
  | solver e => e.message
  | unknown reason => "solver returned unknown: " ++ reason
  | unknownSort name => "no sort for variable " ++ name
  | popEmpty => "pop without a matching push"
  | noModel => "no model available"
  | undeclared name => "model requested for undeclared variable " ++ name
  | canceled => "solver session was canceled"

/-- Whether an error comes from a cancellation. -/
def isCancellation : SessionError → Bool
  | canceled => true
  | solver .killed => true
  | _ => false

end SessionError

/-- An action on a session. -/
abbrev SessionM (σ : Type) := ExceptT SessionError (StateM σ)

/-- A kind of session. -/
class Session (σ : Type) where
  /-- Open a scope. -/
  push : SessionM σ Unit
  /-- Close the innermost scope and forget its assertions. -/
  pop : SessionM σ Unit
  /-- Declare versioned variables ahead of a check. -/
  declare : List String → SessionM σ Unit
  /-- Assert a formula over versioned variables. -/
  assert : Term → SessionM σ Unit
  /-- Check the assertions. -/
  checkSat : SessionM σ SatAnswer
  /-- The values of variables in the model of the last check. -/
  model : List String → SessionM σ Valuation
  /-- Cancel the checks to come. -/
  cancel : σ → σ
  /-- Whether the session was canceled. -/
  isCanceled : σ → Bool

namespace Session

variable {σ : Type}

/-- An action whose failure is a result. -/
def attempt {α : Type} (a : SessionM σ α) : SessionM σ (Except SessionError α) := fun s =>
  let (r, s) := a s
  (.ok r, s)

/-- A result as an action. -/
def ofResult {α : Type} (r : Except SessionError α) : SessionM σ α := fun s => (r, s)

/-- Run an action in a scope of its own. The scope is closed however the action ends, and an error
of the action comes before one of closing. -/
def inScope {α : Type} [Session σ] (a : SessionM σ α) : SessionM σ α := do
  push
  let r ← attempt a
  let closed ← attempt pop
  let v ← ofResult r
  ofResult closed
  pure v

/-- Look for a model of a formula on top of the assertions, with values for some variables. These
are declared before the check, because a declaration after it would drop the model. -/
def modelOf [Session σ] (t : Term) (vars : List String) : SessionM σ (Option Valuation) :=
  inScope do
    declare vars
    assert t
    match ← checkSat with
    | .sat => some <$> model vars
    | .unsat => pure none
    | .unknown reason => throw (.unknown reason)

end Session

/-- The sort of a variable, which has to have one. -/
def Signature.sortOf (s : Signature) (name : String) : Except SessionError VarSort :=
  match s.sortOf? name with
  | some sort => .ok sort
  | none => .error (.unknownSort name)

end LoopInvariant
