import LoopInvariant.Candidates
import LoopInvariant.Decomposition
/-!
# Horn clauses

A segment becomes a clause: the statements on its edges are unrolled from version 0, and the ends
say which invariants stand before and after. A clause is violated by candidates when its
`violation` has a model.
-/

namespace LoopInvariant

/-- What a clause connects. -/
inductive ClauseShape where
  /-- From the entry to a loop head: the invariant holds at first. -/
  | fact (post : Loc)
  /-- Between loop heads: the invariants are kept. -/
  | step (pre post : Loc)
  /-- From a loop head to the error location: the invariant excludes errors. -/
  | query (pre : Loc)
  /-- From the entry straight to the error location. -/
  | simple
  deriving DecidableEq

namespace ClauseShape

/-- The name of the kind. -/
def kind : ClauseShape → String
  | fact _ => "fact"
  | step _ _ => "inductive"
  | query _ => "query"
  | simple => "simple"

/-- Where the clause starts. -/
def pre : ClauseShape → Endpoint
  | fact _ | simple => .entry
  | step l _ | query l => .head l

/-- Where the clause ends. -/
def post : ClauseShape → Endpoint
  | fact l | step _ l => .head l
  | query _ | simple => .error

/-- The shape between two endpoints, if there is one. -/
def between? : Endpoint → Endpoint → Option ClauseShape
  | .entry, .head l => some (fact l)
  | .head l, .head m => some (step l m)
  | .head l, .error => some (query l)
  | .entry, .error => some simple
  | _, _ => none

end ClauseShape

/-- A Horn clause. -/
structure Clause where
  shape : ClauseShape
  /-- The unrolled statements. -/
  body : Term
  /-- The version of each variable after the body. -/
  indexing : Indexing
  /-- The edges the body was unrolled from. -/
  edges : List Nat
  deriving DecidableEq

namespace Clause

/-- The clause of a segment. -/
def ofSegment (a : Automaton) (s : Segment) : Except StructureError Clause :=
  match ClauseShape.between? s.start s.stop with
  | none => .error (.unexpectedSegment (s.start.print a) (s.stop.print a))
  | some shape =>
    let (body, indexing) := unroll .initial (s.edges.flatMap a.stmts)
    .ok { shape, body, indexing, edges := s.edges }

variable (c : Clause)

/-- Where the clause starts. -/
def pre : Endpoint := c.shape.pre

/-- Where the clause ends. -/
def post : Endpoint := c.shape.post

/-- The loop heads whose invariants the clause constrains. -/
def sites : List Loc := (c.pre.head?.toList ++ c.post.head?.toList).eraseDups

/-- The formula that has a model exactly when the candidates violate the clause: the invariant
before at version 0, the body, and the negated invariant after at the final versions. Sites that the
candidates do not name get `instead`. -/
def violationWith (cs : Candidates) (instead : Dnf) : Term :=
  let inv (ix : Indexing) (l : Loc) : Term := ix.instantiate (cs.dnfOr instead l).toTerm
  match c.shape with
  | .fact q => .conj [c.body, (inv c.indexing q).complement]
  | .step p q => .conj [inv .initial p, c.body, (inv c.indexing q).complement]
  | .query p => .conj [inv .initial p, c.body]
  | .simple => c.body

/-- The violation with the candidates' own default. -/
def violation (cs : Candidates) : Term := c.violationWith cs cs.fallback

/-- The invariant at an endpoint as it is written. -/
def printInvariant (a : Automaton) (ix : Indexing) : Endpoint → String
  | .head l =>
    "inv_" ++ a.name l ++ "(" ++ ", ".intercalate (a.decls.map fun d => ix.name d.name) ++ ")"
  | .entry => "true"
  | .error => "false"

/-- The clause as it is written. -/
def print (a : Automaton) : String :=
  c.shape.kind ++ " " ++ c.pre.print a ++ " -> " ++ c.post.print a ++ ": "
    ++ printInvariant a .initial c.pre ++ " & " ++ c.body.print ++ " => "
    ++ printInvariant a c.indexing c.post

end Clause

end LoopInvariant
