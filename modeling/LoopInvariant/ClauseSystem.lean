import LoopInvariant.Clause
import LoopInvariant.Signature
/-!
# Clause systems

All clauses of an automaton: facts, then those between loop heads, then queries, then simple ones.
A clause is identified by its place in this list.
-/

namespace LoopInvariant

/-- The clauses of an automaton. -/
structure ClauseSystem where
  automaton : Automaton
  facts : List Clause
  steps : List Clause
  queries : List Clause
  simples : List Clause
  deriving DecidableEq

namespace ClauseSystem

/-- Decompose an automaton and build its clauses. -/
def ofAutomaton (a : Automaton) : Except StructureError ClauseSystem := do
  let d ← a.decompose
  let cs ← d.segments.mapM (Clause.ofSegment a)
  let ofKind (p : ClauseShape → Bool) : List Clause := cs.filter fun c => p c.shape
  return {
    automaton := a
    facts := ofKind fun | .fact _ => true | _ => false
    steps := ofKind fun | .step _ _ => true | _ => false
    queries := ofKind fun | .query _ => true | _ => false
    simples := ofKind fun | .simple => true | _ => false }

variable (s : ClauseSystem)

/-- Every clause. -/
def clauses : List Clause := s.facts ++ s.steps ++ s.queries ++ s.simples

/-- The declared variables. -/
def decls : List VarDecl := s.automaton.decls

/-- The sorts of the declared variables. -/
def signature : Signature := .ofDecls s.decls

/-- The loop heads that need an invariant, in order. -/
def invariants : List Loc := (SortedSet.ofList (s.clauses.flatMap Clause.sites)).toList

/-- The pairs of clauses in which the first ends at the loop head where the second starts. -/
def dependencies : List (Nat × Nat) :=
  s.clauses.zipIdx.flatMap fun (c, i) =>
    (s.clauses.zipIdx.filter fun (d, _) => c.post.head?.isSome && d.pre.head? = c.post.head?).map
      fun (_, j) => (i, j)

/-- The comparisons in a body, looking through junctions and negations. A definition `x = e` is
passed over. -/
def atomsOf : Term → List Term
  | .nary _ ts => atomsOfList ts
  | .not t => atomsOf t
  | .bin .equals (.var _) _ => []
  | t => if t.isAtom then [t] else []
where
  /-- The comparisons in several terms. -/
  atomsOfList : List Term → List Term
    | [] => []
    | t :: ts => atomsOf t ++ atomsOfList ts

/-- The variable of a name that may be versioned. -/
def baseName (x : String) : String := ((unversioned? x).map (·.1)).getD x

/-- The comparisons in the bodies over unversioned variables, each once, leaving out those without
variables. -/
def atoms : List Term :=
  (((Term.sortUnique (s.clauses.flatMap fun c => atomsOf c.body)).map (Term.rename baseName)).filter
    fun t => !t.vars.isEmpty).eraseDups

/-- The clauses as they are written, one on a line after its number. -/
def print : String :=
  "\n".intercalate (s.clauses.zipIdx.map fun (c, i) => toString i ++ ": " ++ c.print s.automaton)

end ClauseSystem

end LoopInvariant
