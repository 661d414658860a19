import LoopInvariant.Concurrent.Slot
import LoopInvariant.Coordinator
/-!
# The hub of concurrent inference

Workers report to the hub, which alone adds to what is known. Reports are taken in batches: all of a
batch are applied before the next snapshot of what is known is published.
-/

namespace LoopInvariant

/-- What workers report. The snapshot is the generation of the knowledge that the work was based
on. -/
inductive Report where
  /-- A teacher has checked candidates. -/
  | checked (snapshot : Nat) (cs : Candidates)
      (result : Except SessionError (Option (List Constraint)))
  /-- A learner has no candidates. -/
  | failed (learner snapshot : Nat) (e : LearnError)

/-- The outcome of inference. -/
abbrev Outcome := Except SolveError Verdict

/-- The hub. -/
structure Hub where
  /-- The number of learners. -/
  learners : Nat
  knowledge : Knowledge := {}
  /-- What was published. -/
  snapshots : Slot Knowledge := {}
  /-- The generation of the last snapshot. -/
  current : Nat := 0
  /-- The learners that failed on the last snapshot. -/
  failed : SortedSet Nat := ∅
  /-- How many constraints of the batch were new. -/
  added : Nat := 0
  /-- Whether a check of the last snapshot's candidates gave nothing new. -/
  stalled : Bool := false

namespace Hub

/-- Publish what is known. -/
def publish (h : Hub) : Hub :=
  let snapshots := h.snapshots.publish h.knowledge
  { h with snapshots, current := snapshots.generation }

/-- A hub that has published its first snapshot. -/
def start (learners : Nat) : Hub := publish { learners }

/-- Apply a report. -/
def apply (h : Hub) : Report → Except Outcome Hub
  | .checked _ cs (.ok none) => .error (.ok (.safe cs))
  | .checked _ _ (.error e) => .error (.error (.session e))
  | .checked snapshot _ (.ok (some found)) =>
    match h.knowledge.insertAll found with
    | (.error e, _) => .error (.ok (.refuted e))
    | (.ok n, k) =>
      .ok { h with knowledge := k
                   added := h.added + n
                   stalled := h.stalled || (n = 0 && snapshot = h.current) }
  | .failed learner snapshot e =>
    if snapshot = h.current then
      let failed := h.failed.insert learner
      if failed.size = h.learners then .error (.error (.learner e)) else .ok { h with failed }
    else .ok h

/-- End a batch: publish what is known if there is something new. -/
def endBatch (h : Hub) : Except Outcome Hub :=
  if h.added = 0 then
    if h.stalled then .error (.error .noProgress) else .ok h
  else
    .ok (publish { h with knowledge := h.knowledge.simplify.2
                          failed := ∅
                          added := 0
                          stalled := false })

/-- Apply the reports of a batch. -/
def applyBatch : Hub → List Report → Except Outcome Hub
  | h, [] => h.endBatch
  | h, r :: rs =>
    match h.apply r with
    | .ok h => h.applyBatch rs
    | .error o => .error o

end Hub

end LoopInvariant
