import LoopInvariant.Candidates
import LoopInvariant.Datapoint
import LoopInvariant.Term.Eval
/-!
# Decision trees

A tree sorts datapoints into those that lie inside the invariants and those that do not. Written out
as formulas, it is a family of candidates.
-/

namespace LoopInvariant

/-- How an inner node parts datapoints. -/
inductive Decision where
  /-- By their sites: those at one of these go to the true side. -/
  | sites (s : SortedSet Loc)
  /-- By a predicate. -/
  | value (t : Term)

/-- Where a datapoint goes, if that can be told. -/
def Decision.eval (d : Decision) (p : Datapoint) : Option Bool :=
  match d with
  | sites s => some (s.contains p.site)
  | value t => t.evalBool p.valuation.get?

/-- A decision tree. -/
inductive DecisionTree where
  | leaf (inside : Bool)
  | node (decision : Decision) (yes no : DecisionTree)

namespace DecisionTree

/-- The candidates that a tree describes. -/
def candidates : DecisionTree → Candidates
  | leaf true => .top
  | leaf false => .bottom
  | node (.value t) yes no =>
    (yes.candidates.guard t).or (no.candidates.guard t.complement)
  | node (.sites s) yes no => .select s.toList yes.candidates no.candidates

/-- Where a tree sorts a datapoint. A datapoint that may go either way is sorted if both ways
agree. -/
def classify : DecisionTree → Datapoint → Option Bool
  | leaf inside, _ => some inside
  | node d yes no, p =>
    match d.eval p with
    | some true => yes.classify p
    | some false => no.classify p
    | none =>
      match yes.classify p, no.classify p with
      | some a, some b => if a = b then some a else none
      | _, _ => none

/-- The number of nodes. -/
def size : DecisionTree → Nat
  | leaf _ => 1
  | node _ yes no => 1 + yes.size + no.size

end DecisionTree

end LoopInvariant
