import LoopInvariant.Automaton.Json
import LoopInvariant.CommandLine.Arguments
import LoopInvariant.CommandLine.Diagnostic
import LoopInvariant.CommandLine.Folder
/-!
# What a command reports

A command reads an automaton and prints its clauses or infers invariants. The exit status is 0 if
the program is safe or the clauses or help were printed, 2 if the program is unsafe or the arguments
are wrong, 101 if a number is too large, and 1 if anything else went wrong.
-/

namespace LoopInvariant.CommandLine

open Solver

/-- Why a command fails. -/
inductive Failure where
  /-- The arguments are wrong. -/
  | usage
  /-- The file could not be read. -/
  | unreadable (file reason : String)
  /-- The file holds no description. -/
  | malformed
  /-- The description is wrong. -/
  | description (e : DescriptionError) (position : Option Position)
  /-- The automaton has no clauses. -/
  | clauses (e : StructureError)
  /-- Inference failed. -/
  | inference (e : SolveError)
  /-- The invariants violate clauses. -/
  | violated (clauses : List Nat)
  /-- The invariants could not be checked again. -/
  | unverified (e : SessionError)
  /-- The radius of the box has no absolute value. -/
  | radiusOverflow
  /-- The time for a query has too many milliseconds. -/
  | timeoutOverflow

namespace Failure

/-- The message of a failure. That of an overflow stands below an empty line. -/
def message : Failure → String
  | usage => "usage: [--color WHEN] infer [OPTIONS] FILE | print FILE"
  | unreadable file reason => "could not read " ++ file ++ ": " ++ reason
  | malformed => "error: could not read automaton"
  | description e _ => "error: " ++ e.message
  | clauses e => e.message
  | inference e => "inference failed: " ++ e.message
  | violated cs =>
    "invariants violate clauses [" ++ ", ".intercalate (cs.map toString) ++ "]"
  | unverified e => "could not verify invariants: " ++ e.message
  | radiusOverflow => "\nattempt to negate with overflow"
  | timeoutOverflow => "\nattempt to multiply with overflow"

/-- The exit status of a failure. -/
def status : Failure → Nat
  | usage => 2
  | radiusOverflow | timeoutOverflow => 101
  | _ => 1

/-- Where in a file a failure is shown. -/
def place? (file : String) : Failure → Option String
  | description _ (some p) => some (file ++ ":" ++ toString p.line ++ ":" ++ toString p.column)
  | _ => none

end Failure

/-- What a command comes to. -/
structure Report where
  /-- The file that was read. -/
  file : String := ""
  status : Nat := 0
  /-- What is printed. -/
  output : String := ""
  failure : Option Failure := none
  /-- What was sent to the last solver. -/
  sent : List String := []

/-- The report of a failure. -/
def Report.ofFailure (f : Failure) (sent : List String := []) : Report :=
  { status := f.status, failure := some f, sent }

/-- What a command can get at. -/
structure World extends Surroundings where
  /-- The text of a file, or why it cannot be read. -/
  files : String → Except String String

/-- The clauses of a system and what they depend on. -/
def printSystem (s : ClauseSystem) : String :=
  let heads := s.invariants.map s.automaton.name
  let dependency (d : Nat × Nat) : String :=
    "clause " ++ toString d.1 ++ " -> clause " ++ toString d.2
  Text.unlines
    (("loop heads: " ++ ", ".intercalate heads) :: s.print :: s.dependencies.map dependency)

/-- A verdict of the bounded solver holds for its box alone. -/
def note : Backend → List String
  | .bounded radius =>
    let r := toString radius.toInt
    ["note: bounded solver, integers range over [-" ++ r ++ ", " ++ r ++ "]"]
  | .family _ => []

/-- Infer invariants with sessions that start alike. -/
def inferWith (o : InferOptions) (s : ClauseSystem) (start : Except SessionError AnySession) :
    Report :=
  let (outcome, last) := infer s o.config start
  let sent := (last.map (·.sent)).getD []
  let name := s.automaton.name
  let say (status : Nat) (verdict text : String) (sent : List String) : Report :=
    { status, output := Text.unlines (verdict :: note o.solver.backend ++ [text]), sent }
  match outcome with
  | .error e => .ofFailure (.inference e) sent
  | .ok (.refuted e) => say 2 "unsafe" (e.print name) sent
  | .ok (.safe cs) =>
    if o.verify then
      match start with
      | .error e => .ofFailure (.unverified e) sent
      | .ok session =>
        match Teacher.verify s cs session with
        | (.error e, session) => .ofFailure (.unverified e) session.sent
        | (.ok [], session) => say 0 "safe" (cs.print name) session.sent
        | (.ok violated, session) => .ofFailure (.violated violated) session.sent
    else say 0 "safe" (cs.print name) sent

/-- Infer invariants with the solver that is chosen. -/
def inferInvariants (w : World) (o : InferOptions) (s : ClauseSystem) : Report :=
  if o.solver.timeout.any (18446744073709551616 ≤ ·) then .ofFailure .timeoutOverflow
  else
    match o.solver.start? w.toSurroundings s.signature with
    | some start => inferWith o s start
    | none => .ofFailure .radiusOverflow

/-- The clauses of the automaton in a file. -/
def readSystem (w : World) (file : String) : Except Failure ClauseSystem :=
  match w.files file with
  | .error reason => .error (.unreadable file reason)
  | .ok text =>
    match Automaton.read text with
    | .error .malformed => .error .malformed
    | .error (.description e) => .error (.description e (locate? e text))
    | .ok a => (ClauseSystem.ofAutomaton a).mapError .clauses

/-- Run a command. -/
def Command.run (w : World) (c : Command) : Report :=
  let report : Report := match readSystem w c.file with
    | .error f => .ofFailure f
    | .ok s =>
      match c with
      | .print _ => { output := printSystem s }
      | .infer o => inferInvariants w o s
  { report with file := c.file }

/-- Do what the arguments ask for. -/
def run (w : World) (args : List String) : Report :=
  match read? args with
  | some (.run c) => c.run w
  | some (.help t) => { output := t.text }
  | none => .ofFailure .usage

end LoopInvariant.CommandLine
