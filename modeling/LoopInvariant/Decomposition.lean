import LoopInvariant.Component
import LoopInvariant.Text.Quoted
/-!
# Loop heads and segments

A loop has to be left through a single location, its head, which is where an invariant is needed.
Without its head a component falls apart into the nested loops, which are treated alike; a loop that
is never left is a dead end and needs no head. Every path from the entry or a loop head to the next
loop head or to the error location is a segment.
-/

namespace LoopInvariant

/-- A place between which segments run. -/
inductive Endpoint where
  | entry
  | error
  | head (l : Loc)
  deriving DecidableEq

/-- The loop head, if the endpoint is one. -/
def Endpoint.head? : Endpoint → Option Loc
  | head l => some l
  | entry | error => none

/-- The endpoint as it is written. -/
def Endpoint.print (a : Automaton) : Endpoint → String
  | entry => "entry"
  | error => "error"
  | head l => a.name l

/-- A path between two endpoints, as the edges it takes. -/
structure Segment where
  start : Endpoint
  stop : Endpoint
  edges : List Nat
  deriving DecidableEq

/-- Why an automaton has no clauses. -/
inductive StructureError where
  /-- A loop can be left through several locations. -/
  | multipleLoopExits (loop exits : List String)
  /-- A segment connects endpoints that no kind of clause covers. -/
  | unexpectedSegment (start stop : String)
  deriving DecidableEq

/-- The error as it is reported. -/
def StructureError.message : StructureError → String
  | multipleLoopExits loop exits =>
    "program structure does not allow translation to CHC: loop " ++ Text.quotedList loop ++
      " has exits " ++ Text.quotedList exits
  | unexpectedSegment start stop => "no clause for a segment from " ++ start ++ " to " ++ stop

/-- Loop heads in breadth-first order from the entry, and segments grouped by their start. -/
structure Decomposition where
  loopHeads : List Loc
  segments : List Segment
  deriving DecidableEq

namespace Automaton

variable (a : Automaton)

/-- Whether a component holds a cycle. -/
def isCyclic (component : List Loc) : Bool :=
  match component with
  | [l] => (a.localTargets [l] l).contains l
  | _ => true

/-- The members of a component that have an edge out of it. -/
def exits (component : List Loc) : List Loc :=
  component.filter fun l => (a.targets l).any (· ∉ component)

/-- The heads of all loops among `nodes`. The fuel bounds the depth of nesting. -/
def headsWithin : Nat → List Loc → Except StructureError (List Loc)
  | 0, _ => .ok []
  | fuel + 1, nodes => do
    let heads ← (a.components nodes).mapM fun component =>
      if a.isCyclic component then
        match a.exits component with
        | [] => .ok []
        | [head] => do
          let nested ← headsWithin fuel (component.filter (· ≠ head))
          return head :: nested
        | several => .error (.multipleLoopExits (component.map a.name) (several.map a.name))
      else .ok []
    return heads.flatten

/-- The endpoint at a location: a loop head before the error location. -/
def endpointAt (heads : List Loc) (l : Loc) : Option Endpoint :=
  if l ∈ heads then some (.head l) else if l = a.error then some .error else none

/-- A path in flight: where it stands, the edges it took and the locations it visited. -/
structure Walk where
  loc : Loc
  edges : List Nat
  visited : List Loc

/-- Follow an edge. -/
def Walk.step (w : Walk) (edge : Nat) (target : Loc) : Walk :=
  { loc := target, edges := w.edges ++ [edge], visited := target :: w.visited }

/-- Every way to prolong a walk by one edge. -/
def Walk.steps (w : Walk) : List Walk := (a.successors w.loc).map fun (e, l) => w.step e l

/-- Whether the last location was visited before. -/
def Walk.revisits (w : Walk) : Bool := (w.visited.drop 1).contains w.loc

/-- The segments that prolong walks of one length, the shorter ones first. A walk ends at the first
endpoint, and one that revisits a location is dropped. The fuel bounds the length. -/
def segmentsFrom (heads : List Loc) (start : Endpoint) : Nat → List Walk → List Segment
  | 0, _ => []
  | fuel + 1, walks =>
    let longer := walks.flatMap (Walk.steps a)
    let ended := longer.filterMap fun w =>
      (a.endpointAt heads w.loc).map fun stop => { start, stop, edges := w.edges }
    let pending := longer.filter fun w => (a.endpointAt heads w.loc).isNone && !w.revisits
    ended ++ segmentsFrom heads start fuel pending

/-- The segments that start at a location. -/
def segmentsAt (heads : List Loc) (start : Endpoint) (l : Loc) : List Segment :=
  a.segmentsFrom heads start (a.locations.length + 1) [⟨l, [], [l]⟩]

/-- The loop heads and segments of the reachable part. -/
def decompose : Except StructureError Decomposition := do
  let reachable := a.reachable
  let found ← a.headsWithin (reachable.length + 1) reachable
  let heads := reachable.filter (· ∈ found)
  let initial :=
    match a.endpointAt heads a.entry with
    | some stop => [{ start := .entry, stop, edges := [] }]
    | none => a.segmentsAt heads .entry a.entry
  let segments := initial ++ heads.flatMap fun l => a.segmentsAt heads (.head l) l
  return { loopHeads := heads, segments }

end Automaton

end LoopInvariant
