import LoopInvariant.PointIndex
/-!
# What is known about datapoints

Constraints with the labels deduced from them. A label says whether a datapoint lies inside the
invariant of its site, and is universal if no guess was needed to deduce it. The registered
datapoints are those that the constraints mention and their common parts.
-/

namespace LoopInvariant

open Std

/-- Why a datapoint has its label. -/
inductive Reason where
  /-- The constraint with this number forces it. -/
  | constraint (id : Nat)
  /-- A larger datapoint is true, or a smaller one is false. -/
  | subsumed (d : Datapoint)
  deriving DecidableEq

/-- What is known about a datapoint. -/
structure Label where
  /-- Whether it lies inside the invariant. -/
  polarity : Bool
  /-- Whether this follows without guesses. -/
  universal : Bool
  reason : Reason
  deriving DecidableEq

/-- Constraints that no invariants meet: each is derived from those before it, and the last has no
target. -/
structure Contradiction where
  witness : List Constraint
  deriving DecidableEq

namespace Contradiction

/-- The message of a contradiction. -/
def message (e : Contradiction) : String :=
  "contradictory constraints (witness of " ++ toString e.witness.length ++ " constraints)"

/-- Whether guesses are among the constraints. -/
def isSpeculative (e : Contradiction) : Bool := e.witness.any Constraint.isAssumed

/-- The constraints, one on a line. -/
def print (name : Loc → String) (e : Contradiction) : String :=
  "\n".intercalate (e.witness.map (·.print name))

end Contradiction

/-- Constraints with what was deduced from them. -/
structure Knowledge where
  /-- The constraints in the order in which they came; their positions are their numbers. -/
  constraints : Array Constraint := #[]
  /-- The registered datapoints with what lies inside and around each. -/
  points : PointIndex := ∅
  labels : SortedMap Datapoint Label := ∅
  /-- The numbers of constraints that have nothing more to say. -/
  retired : SortedSet Nat := ∅

namespace Knowledge

variable (k : Knowledge)

/-- The number of constraints. -/
def size : Nat := k.constraints.size

/-- The number of constraints that may still have something to say. -/
def active : Nat := k.size - k.retired.size

/-- The registered datapoints in order. -/
def datapoints : List Datapoint := k.points.toList

/-- The label of a datapoint. -/
def label? (d : Datapoint) : Option Label := k.labels.get? d

/-- Whether a datapoint is known to lie inside. -/
def isTrue (d : Datapoint) : Bool := (k.label? d).any (·.polarity)

/-- Whether a datapoint is known not to lie inside. -/
def isFalse (d : Datapoint) : Bool := (k.label? d).any fun l => !l.polarity

/-- Whether a datapoint has a universal label of a polarity. -/
def isDecided (polarity : Bool) (d : Datapoint) : Bool :=
  (k.label? d).any fun l => l.universal && l.polarity == polarity

/-- The datapoints with labels of a polarity. -/
def labelled (polarity universalOnly : Bool) : List Datapoint :=
  (k.labels.entries.filter fun (_, l) =>
    l.polarity == polarity && (l.universal || !universalOnly)).map (·.1)

/-- The registered datapoints strictly inside another that is registered. -/
def subsetsOf (d : Datapoint) : List Datapoint := k.points.subsetsOf d

/-- The registered datapoints strictly around another that is registered. -/
def supersetsOf (d : Datapoint) : List Datapoint := k.points.supersetsOf d

/-- The numbers of the constraints with a property, in order. -/
def idsWhere (p : Constraint → Bool) : List Nat :=
  (List.range k.size).filter fun i => (k.constraints[i]?).any p

/-- The constraints that may say more once a datapoint is true. -/
def asSource (d : Datapoint) : List Nat := k.idsWhere fun c => c.sources.contains d

/-- The constraints that may say more once a datapoint is false. -/
def asTarget (d : Datapoint) : List Nat := k.idsWhere fun c => c.target = some d

end Knowledge

end LoopInvariant
