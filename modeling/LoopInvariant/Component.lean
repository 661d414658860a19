import LoopInvariant.Automaton
/-!
# Strongly connected components

One depth-first search finds all components. A discovered location waits on a stack while it may
still lead back to an earlier one that waits. How far back it leads is its low point, told by
positions in the order of discovery. The first member of a component leads back no further than to
itself: once it is explored, the component is what waits since its discovery. So a component comes
after every other component that it can reach.
-/

namespace LoopInvariant

/-- A depth-first search so far. -/
structure Exploration where
  /-- The locations in the order of their discovery. -/
  discovered : List Loc
  /-- Those that belong to no component yet, the last one discovered first. -/
  waiting : List Loc
  /-- The components in the order in which they were closed. -/
  components : List (List Loc)

namespace Exploration

/-- Nothing explored yet. -/
def empty : Exploration := ⟨[], [], []⟩

instance : Inhabited Exploration := ⟨empty⟩

/-- Discover a location. -/
def enter (x : Exploration) (l : Loc) : Exploration :=
  { x with discovered := x.discovered ++ [l], waiting := l :: x.waiting }

/-- The component of a location is what waits since its discovery. -/
def close (x : Exploration) (l : Loc) : Exploration :=
  { x with
    waiting := (x.waiting.dropWhile (· ≠ l)).tail
    components := x.components ++ [l :: (x.waiting.takeWhile (· ≠ l)).reverse] }

/-- Follow an edge to a location and lower the low point of its source. A location that is new is
explored first; one that waits no more is out of reach. -/
def follow (explore : Exploration → Loc → Exploration × Nat) (s : Exploration × Nat) (m : Loc) :
    Exploration × Nat :=
  if m ∈ s.1.discovered then
    (s.1, if m ∈ s.1.waiting then min s.2 (s.1.discovered.idxOf m) else s.2)
  else
    let r := explore s.1 m
    (r.1, min s.2 r.2)

/-- Explore from a new location. Gives its low point. The fuel bounds the length of a path. -/
def explore (next : Loc → List Loc) : Nat → Exploration → Loc → Exploration × Nat
  | 0, x, _ => (x, x.discovered.length)
  | fuel + 1, x, l =>
    let r := (next l).foldl (follow (explore next fuel)) (x.enter l, x.discovered.length)
    (if r.2 = x.discovered.length then r.1.close l else r.1, r.2)

/-- Explore from a location unless it is discovered. -/
def visit (next : Loc → List Loc) (fuel : Nat) (x : Exploration) (l : Loc) : Exploration :=
  if l ∈ x.discovered then x else (explore next fuel x l).1

end Exploration

namespace Automaton

variable (a : Automaton)

/-- The targets of a location within a set. The error location is terminal: it has none. -/
def localTargets (nodes : List Loc) (l : Loc) : List Loc :=
  if l = a.error then [] else (a.targets l).filter (· ∈ nodes)

/-- The strongly connected components of the part of the automaton that `nodes` spans. -/
def components (nodes : List Loc) : List (List Loc) :=
  (nodes.foldl (Exploration.visit (a.localTargets nodes) (nodes.length + 1)) .empty).components

end Automaton

end LoopInvariant
