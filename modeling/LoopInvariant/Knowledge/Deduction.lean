import LoopInvariant.Knowledge
/-!
# Deduction

A label follows from a constraint or from a label of a related datapoint:

* if all sources of a constraint are true, its target is true;
* if the target of a constraint is false or missing and all sources but one are true, that one is
  false;
* what lies inside a true datapoint is true, and what lies around a false one is false.

New labels wait in a queue until what they mean for others is worked out. A datapoint that gets both
labels, or a constraint without target that fires, is a contradiction.
-/

namespace LoopInvariant

/-! ## Explanations -/

/-- A derivation under construction. -/
structure Chain where
  /-- The numbers of the constraints used, in order. -/
  order : List Nat := []
  /-- The labels that are explained. -/
  visited : SortedMap Datapoint (List Bool) := ∅

namespace Chain

/-- Whether a label was explained before. -/
def knows (c : Chain) (d : Datapoint) (polarity : Bool) : Bool :=
  ((c.visited.get? d).getD []).contains polarity

/-- Note that a label is explained. -/
def visit (c : Chain) (d : Datapoint) (polarity : Bool) : Chain :=
  { c with visited := c.visited.insert d (polarity :: (c.visited.get? d).getD []) }

/-- Use a constraint. -/
def push (c : Chain) (id : Nat) : Chain :=
  if c.order.contains id then c else { c with order := c.order ++ [id] }

end Chain

/-- What waits to be worked out. -/
inductive Pending where
  /-- A constraint may force a label. -/
  | check (id : Nat)
  /-- A datapoint has a new label. -/
  | labelled (d : Datapoint)

namespace Knowledge

/-- Append the constraints that derive a label, each after those that derive its premises. A false
label is explained as the derivation of a contradiction from the datapoint being true. Every level
of the recursion explains another label, so the fuel need not exceed their number. -/
def explain (k : Knowledge) : Nat → Datapoint → Label → Chain → Chain
  | 0, _, _, chain => chain
  | fuel + 1, d, l, chain =>
    if chain.knows d l.polarity then chain
    else
      let chain := chain.visit d l.polarity
      let explainPoint (chain : Chain) (e : Datapoint) : Chain :=
        match k.label? e with
        | some l => explain k fuel e l chain
        | none => chain
      match l.reason with
      | .subsumed e => explainPoint chain e
      | .constraint id =>
        match k.constraints[id]? with
        | none => chain
        | some c =>
          if l.polarity then (c.sources.foldl explainPoint chain).push id
          else
            let chain := ((c.sources.filter (· ≠ d)).foldl explainPoint chain).push id
            c.target.toList.foldl explainPoint chain

/-- Enough fuel to explain any label. -/
def explainFuel (k : Knowledge) : Nat := 2 * k.labels.size + 2

/-- The contradiction of a derivation. -/
def contradiction (k : Knowledge) (chain : Chain) : Contradiction :=
  ⟨chain.order.filterMap fun id => k.constraints[id]?⟩

/-! ## Labels and their consequences -/

/-- Give a datapoint a label. A universal label replaces one that is not; otherwise the first of the
same polarity stays. -/
def setLabel (k : Knowledge) (d : Datapoint) (l : Label) (queue : List Pending) :
    Except Contradiction (Knowledge × List Pending) :=
  let changed := ({ k with labels := k.labels.insert d l }, queue ++ [.labelled d])
  match k.label? d with
  | none => .ok changed
  | some old =>
    if old.polarity = l.polarity then
      .ok (if l.universal && !old.universal then changed else (k, queue))
    else
      let (t, f) := if l.polarity then (l, old) else (old, l)
      .error (k.contradiction (k.explain k.explainFuel d f (k.explain k.explainFuel d t {})))

/-- Give several datapoints the label that follows from a datapoint. -/
def spread (d : Datapoint) (polarity universal : Bool) :
    List Datapoint → Knowledge × List Pending → Except Contradiction (Knowledge × List Pending)
  | [], s => .ok s
  | e :: es, (k, queue) =>
    match k.setLabel e ⟨polarity, universal, .subsumed d⟩ queue with
    | .ok s => spread d polarity universal es s
    | .error e => .error e

/-- Deduce what a constraint forces now. -/
def check (k : Knowledge) (id : Nat) (queue : List Pending) :
    Except Contradiction (Knowledge × List Pending) :=
  match k.constraints[id]? with
  | none => .ok (k, queue)
  | some c =>
    if k.retired.contains id then .ok (k, queue)
    else
      let opened := (c.sources.filter fun s => !k.isTrue s).eraseDups
      let universal := !c.isAssumed &&
        c.sources.all fun s => !k.isTrue s || k.isDecided true s
      match opened, c.target with
      | [], none =>
        let explainPoint (chain : Chain) (e : Datapoint) : Chain :=
          match k.label? e with
          | some l => k.explain k.explainFuel e l chain
          | none => chain
        .error (k.contradiction ((c.sources.foldl explainPoint {}).push id))
      | [], some t => k.setLabel t ⟨true, universal, .constraint id⟩ queue
      | [s], none => k.setLabel s ⟨false, universal, .constraint id⟩ queue
      | [s], some t =>
        match k.label? t with
        | some l =>
          if l.polarity then .ok (k, queue)
          else k.setLabel s ⟨false, universal && l.universal, .constraint id⟩ queue
        | none => .ok (k, queue)
      | _, _ => .ok (k, queue)

/-- Work out one thing. -/
def workOut (k : Knowledge) (p : Pending) (queue : List Pending) :
    Except Contradiction (Knowledge × List Pending) :=
  match p with
  | .check id => k.check id queue
  | .labelled d =>
    match k.label? d with
    | none => .ok (k, queue)
    | some l =>
      let (watched, related) :=
        if l.polarity then (k.asSource d, k.subsetsOf d) else (k.asTarget d, k.supersetsOf d)
      spread d l.polarity l.universal related (k, queue ++ watched.map .check)

/-- Work out everything that waits. -/
def propagate : Nat → Knowledge → List Pending → Except Contradiction Knowledge
  | 0, k, _ => .ok k
  | _ + 1, k, [] => .ok k
  | fuel + 1, k, p :: queue =>
    match k.workOut p queue with
    | .ok (k, queue) => propagate fuel k queue
    | .error e => .error e

/-- Enough fuel to work out a queue: a datapoint gets a new label at most twice, and a new label
makes every constraint wait at most once. -/
def propagateFuel (k : Knowledge) (queue : List Pending) : Nat :=
  queue.length + 2 * k.points.size * (k.size + 1) + 1

/-! ## New datapoints and constraints -/

/-- Take over labels from related datapoints: a true one from around, a false one from inside. -/
def inherit (d : Datapoint) :
    List (Datapoint × Label) → Knowledge × List Pending →
      Except Contradiction (Knowledge × List Pending)
  | [], s => .ok s
  | (e, l) :: rest, (k, queue) =>
    if l.polarity = d.subset e then
      match k.setLabel d ⟨l.polarity, l.universal, .subsumed e⟩ queue with
      | .ok s => inherit d rest s
      | .error e => .error e
    else inherit d rest (k, queue)

/-- Make a datapoint known, and with it its common parts with those at the same site. A common part
fixes more variables, so their number bounds the depth. -/
def register : Nat → Datapoint → Knowledge × List Pending →
    Except Contradiction (Knowledge × List Pending)
  | 0, _, s => .ok s
  | fuel + 1, d, (k, queue) =>
    if k.points.contains d then .ok (k, queue)
    else
      let next := { k with points := k.points.insert d }
      let labels := (next.supersetsOf d ++ next.subsetsOf d).filterMap fun e =>
        (k.label? e).map fun l => (e, l)
      let meets := (k.datapoints.filter fun e => e.site = d.site).filterMap fun e =>
        if d.subset e || e.subset d then none else d.meet? e
      match inherit d labels (next, queue) with
      | .error e => .error e
      | .ok s => meets.reverse.foldlM (fun s m => register fuel m s) s

/-- Enough fuel to register a datapoint: the number of variables that are fixed anywhere. -/
def registerFuel (k : Knowledge) (d : Datapoint) : Nat :=
  (d :: k.datapoints).foldr (fun e n => e.valuation.size + n) 1

/-- Make several datapoints known. -/
def registerAll : List Datapoint → Knowledge × List Pending →
    Except Contradiction (Knowledge × List Pending)
  | [], s => .ok s
  | d :: ds, s =>
    match register (s.1.registerFuel d) d s with
    | .ok s => registerAll ds s
    | .error e => .error e

/-- Add a constraint and deduce what follows. Says whether it was new. -/
def insert (k : Knowledge) (c : Constraint) : Except Contradiction (Bool × Knowledge) :=
  if k.constraints.contains c then .ok (false, k)
  else
    match registerAll c.datapoints ({ k with constraints := k.constraints.push c }, []) with
    | .error e => .error e
    | .ok (next, queue) =>
      let queue := queue ++ [.check k.size]
      (propagate (next.propagateFuel queue) next queue).map fun next => (true, next)

/-- Add constraints one after the other, up to a contradiction. Gives what is known then, and how
many were new or the contradiction. -/
def insertAll (k : Knowledge) : List Constraint → Except Contradiction Nat × Knowledge
  | [] => (.ok 0, k)
  | c :: cs =>
    match k.insert c with
    | .error e => (.error e, k)
    | .ok (added, next) =>
      let (r, last) := next.insertAll cs
      (r.map (· + if added then 1 else 0), last)

/-- Guess several things in a row. -/
def assume (k : Knowledge) : List Constraint → Except Contradiction Knowledge
  | [] => .ok k
  | c :: cs =>
    match k.insert c with
    | .ok (_, next) => next.assume cs
    | .error e => .error e

/-- Guess that datapoints lie inside. -/
def withTrue (k : Knowledge) (ds : List Datapoint) : Except Contradiction Knowledge :=
  k.assume (ds.map .assumeTrue)

/-- Guess that datapoints do not lie inside. -/
def withFalse (k : Knowledge) (ds : List Datapoint) : Except Contradiction Knowledge :=
  k.assume (ds.map .assumeFalse)

/-- Whether a constraint has nothing more to say. -/
def isSettled (k : Knowledge) (c : Constraint) : Bool :=
  c.target.any (k.isDecided true) || c.sources.any (k.isDecided false)

/-- Retire the constraints that have nothing more to say. Gives their number. -/
def simplify (k : Knowledge) : Nat × Knowledge :=
  let done := (k.idsWhere k.isSettled).filter fun id => !k.retired.contains id
  (done.length, { k with retired := done.foldl SortedSet.insert k.retired })

end Knowledge

end LoopInvariant
