import LoopInvariant.Term.Printer
import LoopInvariant.Version
/-!
# Statements and their unrolling

A list of statements is unrolled into a conjunction over versioned names: an assignment equates the
next version of its variable with the right side at the current versions, and a havoc skips a
version.
-/

namespace LoopInvariant

/-- A statement on an edge. -/
inductive Statement where
  /-- Store the value of a term. -/
  | assign (x : String) (t : Term)
  /-- Block unless the condition holds. -/
  | assume (t : Term)
  /-- Store any value. -/
  | havoc (x : String)
  deriving DecidableEq

namespace Statement

/-- A statement as it is written. -/
def print : Statement → String
  | assign x t => x ++ " := " ++ t.print
  | assume t => "assume " ++ t.print
  | havoc x => "havoc " ++ x

/-- The variables a statement mentions: first the one it writes, then those it reads in order. -/
def mentions : Statement → List String
  | assign x t => x :: t.vars
  | assume t => t.vars
  | havoc x => [x]

end Statement

/-- The effects of statements from an indexing on, one conjunct each, and the indexing after
them. -/
def effects (ix : Indexing) : List Statement → List Term × Indexing
  | [] => ([], ix)
  | .assign x t :: rest =>
    let (ts, last) := effects (ix.bump x) rest
    (Term.equals (.var (versioned x (ix.get x + 1))) (ix.instantiate t) :: ts, last)
  | .assume t :: rest =>
    let (ts, last) := effects ix rest
    (ix.instantiate t :: ts, last)
  | .havoc x :: rest => effects (ix.bump x) rest

/-- The conjunction of the effects of statements, and the indexing after them. -/
def unroll (ix : Indexing) (stmts : List Statement) : Term × Indexing :=
  let (ts, last) := effects ix stmts
  (Term.conj ts, last)

end LoopInvariant
