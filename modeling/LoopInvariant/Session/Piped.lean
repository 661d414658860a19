import LoopInvariant.Session
/-!
# Sessions with a solver process

Assertions are sent to a solver. Constants are declared when they are first needed, once and for
all: the solver keeps them when a scope is closed.
-/

namespace LoopInvariant

open Solver

/-- A session with a solver process. -/
structure PipedSession where
  pipe : Pipe
  signature : Signature
  /-- The variables that the solver knows. -/
  declared : SortedSet String := SortedSet.ofList []
  /-- The number of open scopes. -/
  depth : Nat := 0
  canceled : Bool := false

namespace PipedSession

/-- Start a solver for a signature. -/
def launch (programs : String → Option Peer) (l : Launch) (transcript : Option Transcript)
    (s : Signature) : Except SessionError PipedSession :=
  match Pipe.launch programs l transcript with
  | .ok pipe => .ok { pipe, signature := s }
  | .error e => .error (.solver e)

/-- An action of the process. -/
def perform {α : Type} (a : Action α) : SessionM PipedSession α := fun s =>
  let (r, p) := a s.pipe
  (r.mapError .solver, { s with pipe := p })

/-- Declare a variable, unless the solver knows it. -/
def declareOne (x : String) : SessionM PipedSession Unit := do
  let s ← get
  if s.declared.contains x then pure ()
  else
    let sort ← Session.ofResult (s.signature.sortOf x)
    perform (Pipe.declare x sort.print)
    modify fun s => { s with declared := s.declared.insert x }

/-- The value that an answer gives for a variable. -/
def readValue (s : Signature) (pair : Sexp) : Except SessionError (String × Value) :=
  let malformed : SessionError := .solver (.parse pair.print "expected (name value)")
  match pair with
  | .list [.sym x, value] =>
    match s.sortOf x with
    | .error e => .error e
    | .ok sort =>
      let read? : Option Value := match sort with
        | .bool => value.bool?.map .bool
        | .int => value.int?.map .int
      match read? with
      | some a => .ok (x, a)
      | none => .error malformed
  | _ => .error malformed

/-- The values that an answer gives. What is no list gives none. -/
def readValues (s : Signature) (answer : Sexp) : Except SessionError Valuation :=
  match (answer.list?.getD []).mapM (readValue s) with
  | .ok pairs => .ok (SortedMap.ofList pairs)
  | .error e => .error e

instance : Session PipedSession where
  push := do
    perform Pipe.push
    modify fun s => { s with depth := s.depth + 1 }
  pop := do
    if (← get).depth = 0 then throw .popEmpty
    else
      modify fun s => { s with depth := s.depth - 1 }
      perform Pipe.pop
  declare := fun xs => xs.forM declareOne
  assert := fun t => do
    t.vars.forM declareOne
    perform (Pipe.assert t.toSexp)
  checkSat := fun s =>
    match perform Pipe.checkSat s with
    | (.error (.solver .killed), s) =>
      (.error (if s.canceled then .canceled else .solver .killed), s)
    | other => other
  model := fun xs => do
    let s ← get
    match xs.find? fun x => !s.declared.contains x with
    | some x => throw (.undeclared x)
    | none =>
      let answer ← perform (Pipe.values xs)
      Session.ofResult (readValues s.signature answer)
  cancel := fun s => { s with canceled := true, pipe := s.pipe.kill }
  isCanceled := fun s => s.canceled

end PipedSession

end LoopInvariant
