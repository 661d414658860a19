import LoopInvariant.Session
import LoopInvariant.Term.Printer
import LoopInvariant.Text.Blank
/-!
# Scripted sessions

A session that answers by a script, fails where it is told to and keeps a record of what it was
asked. It checks neither sorts nor scopes.
-/

namespace LoopInvariant

open Solver (SatAnswer)

/-- A scripted answer to a check. -/
inductive ScriptedAnswer where
  | sat (model : Valuation)
  | unsat
  | unknown (reason : String)

/-- A scripted session. -/
structure ScriptedSession where
  /-- The answers to the coming checks; afterwards nothing can be satisfied. -/
  replies : List ScriptedAnswer := []
  /-- Which call of which method fails, counting from one, and how. -/
  faults : List (String × Nat × SessionError) := []
  /-- The calls so far, the latest first, each with its method. -/
  calls : List (String × String) := []
  model : Option Valuation := none
  canceled : Bool := false

namespace ScriptedSession

/-- Record a call, and fail if the script says so. -/
def call (method : String) (args : String) : SessionM ScriptedSession Unit := fun s =>
  let calls := (method, Text.trimEnd (method ++ " " ++ args)) :: s.calls
  let count := (calls.filter fun c => c.1 = method).length
  let result := match s.faults.find? fun f => f.1 = method ∧ f.2.1 = count with
    | some (_, _, e) => .error e
    | none => .ok ()
  (result, { s with calls })

/-- The record of the calls, in order. -/
def record (s : ScriptedSession) : List String := s.calls.reverse.map (·.2)

/-- The next answer to a check. -/
def next (s : ScriptedSession) : SatAnswer × ScriptedSession :=
  match s.replies with
  | [] => (.unsat, { s with model := none })
  | .unsat :: rest => (.unsat, { s with model := none, replies := rest })
  | .unknown reason :: rest => (.unknown reason, { s with model := none, replies := rest })
  | .sat m :: rest => (.sat, { s with model := some m, replies := rest })

instance : Session ScriptedSession where
  push := call "push" ""
  pop := call "pop" ""
  declare := fun xs => call "declare" (" ".intercalate xs)
  assert := fun t => call "assert" t.print
  checkSat := do
    call "check_sat" ""
    if (← get).canceled then throw .canceled
    else fun s => (.ok s.next.1, s.next.2)
  model := fun xs => do
    call "get_model" (" ".intercalate xs)
    match (← get).model with
    | none => throw .noModel
    | some m => pure (m.filter fun x _ => x ∈ xs)
  cancel := fun s => { s with canceled := true }
  isCanceled := fun s => s.canceled

end ScriptedSession

end LoopInvariant
