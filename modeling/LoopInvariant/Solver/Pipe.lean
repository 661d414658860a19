import LoopInvariant.Sexp.Reader
import LoopInvariant.Solver.Launch
import LoopInvariant.Solver.Peer
import LoopInvariant.Solver.Transcript
/-!
# A running solver

Commands are written to the solver, and the answer to a query ends where the solver echoes a marker.
Another party may kill the solver at any time. Inside a query it is killed at once; outside it is
only marked, and the next command ends it. What landed when is part of the state: `Kills` says how
many kill calls land before each step to come.
-/

namespace LoopInvariant.Solver

/-- What can go wrong with a solver. -/
inductive SolverError where
  /-- Reading or writing failed. -/
  | io (reason : String)
  /-- The solver reported an error or exited. -/
  | unexpectedClose (report : String)
  /-- An answer could not be read. -/
  | parse (answer reason : String)
  /-- The solver was killed. -/
  | killed
  /-- The solver neither answers nor exits, and nobody kills it. -/
  | stalled
  deriving DecidableEq

/-- The message of an error. -/
def SolverError.message : SolverError → String
  | io reason => "some I/O went wrong: " ++ reason
  | unexpectedClose report => "solver returned an error:\n" ++ report
  | parse answer reason => "could not parse solver response `" ++ answer ++ "`: " ++ reason
  | killed => "solver was killed"
  | stalled => "solver does not answer"

/-- The answer to a satisfiability query. -/
inductive SatAnswer where
  | sat
  | unsat
  | unknown (reason : String)
  deriving DecidableEq

/-- How far the end of a solver has come. -/
inductive Status where
  /-- It runs; inside a query it may be killed at once. -/
  | running (inQuery : Bool)
  /-- It shall end at the next command. -/
  | stopping
  /-- It was killed and not waited for. -/
  | unreaped
  /-- It was waited for. -/
  | reaped
  deriving DecidableEq

/-- What happens to a solver. -/
inductive Event where
  /-- A command was written. -/
  | command (x : Sexp)
  /-- The marker was asked for. -/
  | marker
  /-- A kill call killed it. -/
  | signal
  /-- Its owner killed it. -/
  | stop
  /-- It was waited for. -/
  | reap
  deriving DecidableEq

/-- Kill calls to come: how many land before each step, and whether one lands while the solver stays
silent. -/
structure Kills where
  before : List Nat := []
  whenSilent : Bool := false

/-- A solver with its owner's view of it. -/
structure Pipe where
  status : Status := .running false
  peer : Peer
  transcript : Option Transcript := none
  /-- What happened, the latest first. -/
  history : List Event := []
  kills : Kills := {}

/-- An action of the owner. -/
abbrev Action := ExceptT SolverError (StateM Pipe)

namespace Pipe

/-- A kill call. Only the first that finds the solver inside a query kills it. -/
def kill (p : Pipe) : Pipe :=
  match p.status with
  | .running true =>
    { p with status := .unreaped
             peer := { p.peer with alive := false }
             history := .signal :: p.history }
  | .running false => { p with status := .stopping }
  | _ => p

/-- Several kill calls in a row. -/
def killTimes : Nat → Pipe → Pipe
  | 0, p => p
  | n + 1, p => killTimes n p.kill

/-- The kill calls that land before the next step. -/
def interrupt (p : Pipe) : Pipe :=
  match p.kills.before with
  | [] => p
  | n :: rest => killTimes n { p with kills := { p.kills with before := rest } }

/-- A step of the owner: kill calls land before it and never inside it. -/
def step {α : Type} (f : Pipe → Except SolverError α × Pipe) : Action α :=
  fun p => f p.interrupt

/-- An action whose failure is a result. -/
def attempt {α : Type} (a : Action α) : Action (Except SolverError α) := fun p =>
  let (r, p) := a p
  (.ok r, p)

/-- End a solver that was told to stop or was killed, and report so. -/
def settle (p : Pipe) : Except SolverError Unit × Pipe :=
  match p.status with
  | .running _ => (.ok (), p)
  | .stopping =>
    (.error .killed,
      { p with status := .reaped
               peer := { p.peer with alive := false }
               history := .reap :: .stop :: p.history })
  | .unreaped => (.error .killed, { p with status := .reaped, history := .reap :: p.history })
  | .reaped => (.error .killed, p)

/-- Fail if the solver was killed. -/
def checkKilled : Action Unit := step settle

/-- Enter or leave a query. -/
def setInQuery (inQuery : Bool) : Action Unit := step fun p =>
  match p.settle with
  | (.ok (), p) => (.ok (), { p with status := .running inQuery })
  | failed => failed

/-- Record in the transcript. -/
def record (x : Sexp) : Action Unit := step fun p =>
  (.ok (), { p with transcript := p.transcript.map (·.append x) })

/-- The failure of a write to a solver that has exited. -/
def brokenPipe : SolverError := .io "Broken pipe (os error 32)"

/-- Write a text. What was written is kept in the history. -/
def write (text : String) (event : Event) : Action (Except SolverError Unit) := step fun p =>
  if p.peer.alive then
    (.ok (.ok ()), { p with peer := p.peer.read text, history := event :: p.history })
  else (.ok (.error brokenPipe), p)

/-- Report a failed write or the end of the output: a kill is the better explanation. -/
def blame {α : Type} (e : SolverError) : Action α := do
  checkKilled
  throw e

/-- Send a command that has no answer. -/
def send (x : Sexp) : Action Unit := do
  checkKilled
  record x
  match ← write x.print (.command x) with
  | .ok () => pure ()
  | .error e => blame e

/-- The report of an answer that is no regular one: the text of the first error in it, else all of
it. -/
def errorReport (answer : String) : String :=
  let message? : Sexp → Option String
    | .list [.sym "error", .sym s] => some s
    | _ => none
  match Sexp.readAll answer with
  | .ok xs => (xs.findSome? message?).getD answer
  | .error _ => answer

/-- What is read before the output ends or waits. -/
inductive Heard where
  /-- An answer that ends with the marker. -/
  | answer (text : String)
  /-- The output ended. -/
  | ended (text : String)
  /-- Nothing more comes. -/
  | silence

/-- Read up to the marker. Lines that were printed before a solver was killed can still be read. -/
def hear (p : Pipe) : Heard × Pipe :=
  let before := p.peer.output.takeWhile fun l => !Peer.isMarker l
  match p.peer.output.dropWhile fun l => !Peer.isMarker l with
  | _ :: rest =>
    (.answer (Text.trimEnd (Text.unlines before)),
      { p with peer := { p.peer with output := rest } })
  | [] =>
    if p.peer.alive then (.silence, p)
    else (.ended (Text.unlines before), { p with peer := { p.peer with output := [] } })

/-- Read an answer. Waiting for a silent solver ends only when it is killed. -/
def listen : Action Heard := step fun p =>
  match p.hear with
  | (.silence, p) =>
    if p.kills.whenSilent then
      match (kill { p with kills := { p.kills with whenSilent := false } }).hear with
      | (.silence, p) => (.error .stalled, p)
      | (heard, p) => (.ok heard, p)
    else (.error .stalled, p)
  | (heard, p) => (.ok heard, p)

/-- Everything that the solver prints up to the marker. -/
def response : Action String := do
  match ← write Peer.markerCommand .marker with
  | .error e => blame e
  | .ok () =>
    match ← listen with
    | .answer text => pure text
    | .ended text => blame (.unexpectedClose (errorReport text))
    | .silence => throw .stalled

/-- Send a command and read its answer as an s-expression. -/
def ask (x : Sexp) : Action Sexp := do
  send x
  let answer ← response
  if "(error".toList.isPrefixOf answer.toList then throw (.unexpectedClose (errorReport answer))
  else
    match Sexp.read answer with
    | .ok y => pure y
    | .error e => throw (.parse answer e.message)

/-- Open a scope. -/
def push : Action Unit := send (.app "push" [.num 1])

/-- Close the innermost scope. -/
def pop : Action Unit := send (.app "pop" [.num 1])

/-- Declare a constant. -/
def declare (name sort : String) : Action Unit :=
  send (.app "declare-const" [.sym name, .sym sort])

/-- Assert a formula. -/
def assert (formula : Sexp) : Action Unit := send (.app "assert" [formula])

/-- The value of an attribute. -/
def info (name : String) : Action Sexp := do
  let y ← ask (.app "get-info" [.sym name])
  let malformed : SolverError := .parse y.print ("expected (" ++ name ++ " value)")
  match y with
  | .list [.sym key, value] => if key = name then pure value else throw malformed
  | _ => throw malformed

/-- Save the transcript, if there is one. -/
def save : Action (Option String) := step fun p =>
  match p.transcript with
  | none => (.ok none, p)
  | some t => (.ok t.save.1, { p with transcript := some t.save.2 })

/-- Add a note to the transcript. -/
def annotate (note : String) : Action Unit := step fun p =>
  (.ok (), { p with transcript := p.transcript.map (·.annotate note) })

/-- Ask whether the assertions can be satisfied. -/
def checkSat : Action SatAnswer := do
  send (.app "check-sat" [])
  setInQuery true
  let answer ← attempt response
  setInQuery false
  match ← liftExcept answer with
  | "sat" => pure .sat
  | "unsat" => pure .unsat
  | "unknown" =>
    let reason ← info ":reason-unknown"
    let _ ← save
    pure (.unknown reason.print)
  | other => throw (.unexpectedClose (errorReport other))
where
  /-- An outcome as an action. -/
  liftExcept (r : Except SolverError String) : Action String := fun p => (r, p)

/-- Ask for the values of constants. Without names nothing is asked. -/
def values (names : List String) : Action Sexp :=
  if names.isEmpty then pure (.list [])
  else do
    setInQuery true
    let answer ← attempt (ask (.app "get-value" [.list (names.map .sym)]))
    setInQuery false
    fun p => (answer, p)

/-- Kill a solver, unless it was waited for. -/
def stop (p : Pipe) : Pipe :=
  if .reap ∈ p.history then p
  else { p with peer := { p.peer with alive := false }, history := .stop :: p.history }

/-- Wait for a solver, unless that was done. -/
def reap (p : Pipe) : Pipe :=
  if .reap ∈ p.history then p else { p with history := .reap :: p.history }

/-- Give a solver up: it is told to exit, killed and waited for, and only then marked as gone. -/
def close : Action Unit := do
  let _ ← write "(exit)" (.command (.app "exit" []))
  step fun p => (.ok (), p.stop)
  step fun p => (.ok (), p.reap)
  step fun p => (.ok (), { p with status := .reaped })

/-- Start a solver. The programs that can be run are given by their names. -/
def launch (programs : String → Option Peer) (l : Launch) (transcript : Option Transcript) :
    Except SolverError Pipe :=
  match programs l.program with
  | none => .error (.io "No such file or directory (os error 2)")
  | some peer =>
    let start : Pipe :=
      { peer, transcript := transcript.map (·.append (.comment l.commandLine)) }
    let greeting : Action Unit := do
      send (.app "set-option" [.sym ":produce-models", .sym "true"])
      l.options.forM fun (name, value) =>
        send (.app "set-option" [.sym (":" ++ name), .sym value])
      send (.app "set-logic" [.sym l.logic])
    match greeting start with
    | (.ok (), p) => .ok p
    | (.error e, _) => .error e

end Pipe

end LoopInvariant.Solver
