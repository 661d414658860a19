import LoopInvariant.DecisionTree
import LoopInvariant.Knowledge.Deduction
/-!
# Growing decision trees

A set of datapoints becomes a leaf if all of them can get the same label without a contradiction.
These labels are then taken for granted in the rest of the tree. Otherwise the set is split, by site
first and then by the predicate that leaves the least disorder.
-/

namespace LoopInvariant

/-- What trees are made of. -/
structure TreeLearner where
  decls : List VarDecl
  /-- Whether observed values are used as thresholds. -/
  useValues : Bool := true
  /-- Further predicates. -/
  atoms : List Term := []

/-- A learner has no candidates for what is known. -/
inductive LearnError where
  | notExpressible (reason : String)
  deriving DecidableEq

namespace LearnError

/-- Why there are no candidates. -/
def reason : LearnError → String
  | notExpressible r => r

/-- The message of an error. -/
def message (e : LearnError) : String := "candidates not expressible: " ++ e.reason

end LearnError

namespace TreeLearner

/-- The predicates on a variable that the observed values suggest: bounds below the greatest value,
then equalities. -/
def predicatesOn (d : VarDecl) (points : List Datapoint) : List Term :=
  let observed := points.filterMap fun p => p.valuation.get? d.name
  match d.sort with
  | .bool => if observed.isEmpty then [] else [.var d.name]
  | .int =>
    let values := (SortedSet.ofList (observed.filterMap Value.int?)).toList
    values.dropLast.map (fun c => .rel .leq (.var d.name) (.int c)) ++
      values.map fun c => .equals (.var d.name) (.int c)

/-- The predicates that may split a set of datapoints. -/
def predicates (l : TreeLearner) (points : List Datapoint) : List Term :=
  (if l.useValues then l.decls.flatMap (predicatesOn · points) else []) ++ l.atoms

/-- The datapoints on which a predicate may be true, and those on which it may be false. -/
def partition (t : Term) (points : List Datapoint) : List Datapoint × List Datapoint :=
  (points.filter fun p => t.evalBool p.valuation.get? ≠ some false,
    points.filter fun p => t.evalBool p.valuation.get? ≠ some true)

/-- Twice the disorder of a set: the minority among the labelled datapoints counts in full, and
those without a label by half. -/
def disorder (k : Knowledge) (side : List Datapoint) : Nat :=
  let t := (side.filter k.isTrue).length
  let f := (side.filter k.isFalse).length
  2 * min t f + (side.length - t - f)

/-- A way to split a set. -/
structure Split where
  decision : Decision
  yes : List Datapoint
  no : List Datapoint

/-- The split by a predicate with its disorder, if both sides are smaller than the set. -/
def splitOn? (k : Knowledge) (points : List Datapoint) (t : Term) : Option (Nat × Split) :=
  let (yes, no) := partition t points
  if yes.length < points.length ∧ no.length < points.length then
    some (disorder k yes + disorder k no, ⟨.value t, yes, no⟩)
  else none

/-- The first split of least disorder. -/
def best? : List (Nat × Split) → Option (Nat × Split)
  | [] => none
  | s :: rest =>
    match best? rest with
    | none => some s
    | some b => if b.1 < s.1 then some b else some s

/-- Split a set: by site if there are several, else by the best predicate. -/
def split (l : TreeLearner) (k : Knowledge) (points : List Datapoint) : Except LearnError Split :=
  let sites := SortedSet.ofList (points.map (·.site))
  if 1 < sites.size then
    let half := SortedSet.ofList (sites.toList.take (sites.size / 2))
    .ok ⟨.sites half, points.filter fun p => half.contains p.site,
      points.filter fun p => !half.contains p.site⟩
  else
    match best? ((l.predicates points).filterMap (splitOn? k points)) with
    | some (_, s) => .ok s
    | none =>
      .error (.notExpressible
        ("no predicate separates " ++ toString points.length ++ " datapoints"))

/-- Give all datapoints of a set the same label, if that leads to no contradiction. A polarity is
out of the question if one of them has the other label. -/
def labelAll? (k : Knowledge) (points : List Datapoint) (polarity : Bool) : Option Knowledge :=
  let opposed := if polarity then k.isFalse else k.isTrue
  if points.any opposed then none
  else
    let opened := points.filter fun p => (k.label? p).isNone
    ((if polarity then k.withTrue else k.withFalse) opened).toOption

/-- Make a set a leaf, with the label of the majority if possible. -/
def leaf? (k : Knowledge) (points : List Datapoint) : Option (Bool × Knowledge) :=
  let t := (points.filter k.isTrue).length
  let f := (points.filter k.isFalse).length
  let first : Bool := f ≤ t
  ((labelAll? k points first).map fun next => (first, next)).or
    ((labelAll? k points !first).map fun next => (!first, next))

/-- Grow a tree over a set, the true side first. Each side of a split is smaller than the set, so
that the size of the set bounds the depth. -/
def grow (l : TreeLearner) : Nat → Knowledge → List Datapoint →
    Except LearnError (DecisionTree × Knowledge)
  | 0, _, points =>
    .error (.notExpressible
      ("no predicate separates " ++ toString points.length ++ " datapoints"))
  | depth + 1, k, points =>
    match leaf? k points with
    | some (inside, next) => .ok (.leaf inside, next)
    | none =>
      match l.split k points with
      | .error e => .error e
      | .ok s =>
        match grow l depth k s.yes with
        | .error e => .error e
        | .ok (yes, k) =>
          match grow l depth k s.no with
          | .error e => .error e
          | .ok (no, k) => .ok (.node s.decision yes no, k)

/-- A tree that sorts all registered datapoints. -/
def learn (l : TreeLearner) (k : Knowledge) : Except LearnError DecisionTree :=
  (l.grow (k.datapoints.length + 1) k k.datapoints).map (·.1)

/-- The name of a learner. -/
def name (l : TreeLearner) : String :=
  let count := toString l.atoms.length
  if l.useValues then
    if l.atoms.isEmpty then "decision-tree" else "decision-tree+" ++ count ++ "-atoms"
  else "decision-tree(" ++ count ++ "-atoms)"

end TreeLearner

end LoopInvariant
