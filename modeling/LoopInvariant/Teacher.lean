import LoopInvariant.ClauseSystem
import LoopInvariant.Datapoint
import LoopInvariant.Session
/-!
# Teachers

A teacher checks candidates against the clauses with a solver session. Each clause that they violate
gives a constraint between datapoints: what the model says of the states before and after.
-/

namespace LoopInvariant

namespace Clause

/-- The part of a model that belongs to the declared variables in some versions. -/
def project (names : List String) (ix : Indexing) (m : Valuation) : Valuation :=
  SortedMap.ofList (names.filterMap fun x => (m.get? (ix.name x)).map fun a => (x, a))

/-- The versioned variables whose values make up a counterexample. -/
def observed (c : Clause) (names : List String) : List String :=
  let before := if c.pre.head?.isSome then names.map Indexing.initial.name else []
  let after := if c.post.head?.isSome then names.map c.indexing.name else []
  (SortedSet.ofList (before ++ after)).toList

/-- The constraint that a model of a clause's violation stands for. -/
def counterexample (c : Clause) (i : Nat) (names : List String) (m : Valuation) : Constraint where
  sources := c.pre.head?.toList.map fun l => ⟨l, project names .initial m⟩
  target := c.post.head?.map fun l => ⟨l, project names c.indexing m⟩
  origin := .clause i

end Clause

namespace Teacher

variable {σ : Type} [Session σ]

/-- Check numbered clauses, and gather a counterexample for each that is violated. -/
def gather (names : List String) (cs : Candidates) :
    List (Clause × Nat) → SessionM σ (List Constraint)
  | [] => pure []
  | (c, i) :: rest => do
    let model ← Session.modelOf (c.violation cs) (c.observed names)
    let found ← gather names cs rest
    pure (((model.map (c.counterexample i names)).toList) ++ found)

/-- Check candidates against every clause. Gives nothing if they are inductive, and otherwise a
constraint for each clause that they violate. -/
def check (s : ClauseSystem) (cs : Candidates) : SessionM σ (Option (List Constraint)) := do
  let found ← gather (s.decls.map (·.name)) cs s.clauses.zipIdx
  pure (if found.isEmpty then none else some found)

/-- The numbers of the clauses that candidates violate. -/
def verify (s : ClauseSystem) (cs : Candidates) : SessionM σ (List Nat) :=
  s.clauses.zipIdx.filterMapM fun (c, i) => do
    let model ← Session.modelOf (c.violationWith cs cs.fallback) []
    pure (model.map fun _ => i)

/-- The values at the start of a run. -/
def initialValues (m : Valuation) : Valuation :=
  SortedMap.ofList (m.entries.filterMap fun (x, a) =>
    (unversioned? x).map fun (base, _) => (base, a))

/-- Look for a run straight from the entry to the error location. Gives the number of the clause and
the values at the start. -/
def failingPath? (s : ClauseSystem) : SessionM σ (Option (Nat × Valuation)) :=
  let names := s.decls.map fun d => Indexing.initial.name d.name
  s.clauses.zipIdx.findSomeM? fun (c, i) => do
    match c.shape with
    | .simple =>
      let model ← Session.modelOf c.body names
      pure (model.map fun m => (i, initialValues m))
    | _ => pure none

end Teacher

end LoopInvariant
