import LoopInvariant.Concurrent.Hub
/-!
# Concurrent inference

Learners and teachers work at their own pace. A learner reads the latest snapshot and offers its
candidates; a teacher reads the latest candidates and reports what a check of them found. Reports go
through a queue of bounded length, from which the hub receives one after the other until it applies
those it has. Any sequence of moves is a run; `infer` takes one in which all workers move in turn.
-/

namespace LoopInvariant

/-- A learner at work. -/
structure LearnerDesk where
  learner : Learner
  /-- The generation that was read last. -/
  seen : Nat := 0
  /-- The snapshot that is worked on. -/
  job : Option (Nat × Knowledge) := none

/-- A teacher at work. -/
structure TeacherDesk (σ : Type) where
  session : σ
  /-- The generation that was read last. -/
  seen : Nat := 0
  /-- The candidates that are checked, with the snapshot they come from. -/
  job : Option (Nat × Candidates) := none

/-- All workers with what they share. -/
structure Workshop (σ : Type) where
  system : ClauseSystem
  learners : List LearnerDesk
  teachers : List (TeacherDesk σ)
  hub : Hub
  /-- The latest candidates, with the snapshot they come from. -/
  candidates : Slot (Nat × Candidates) := {}
  /-- The reports that wait in the queue. -/
  reports : List Report := []
  /-- The reports that the hub has received and not yet applied. -/
  batch : List Report := []
  outcome : Option Outcome := none

/-- What may happen next. -/
inductive Move where
  /-- A learner reads a snapshot. -/
  | learnerReads (i : Nat)
  /-- A learner offers candidates or reports its failure. -/
  | learnerAnswers (i : Nat)
  /-- A teacher reads candidates. -/
  | teacherReads (i : Nat)
  /-- A teacher checks candidates and reports. -/
  | teacherAnswers (i : Nat)
  /-- The hub receives the next report of its batch. -/
  | hubReceives
  /-- The hub applies its batch. -/
  | hubApplies
  /-- There are no more snapshots for the learners. -/
  | closeSnapshots
  /-- There are no more candidates for the teachers. -/
  | closeCandidates

namespace Workshop

variable {σ : Type} [Session σ]

/-- A workshop in which everybody is about to begin. -/
def start (s : ClauseSystem) (learners : List Learner) (sessions : List σ) : Workshop σ where
  system := s
  learners := learners.map fun learner => { learner }
  teachers := sessions.map fun session => { session }
  hub := .start learners.length

/-- Whether the queue takes another report. A worker whose report it does not take has to wait. -/
def hasRoom (w : Workshop σ) : Bool :=
  w.outcome.isNone && w.reports.length < w.learners.length + w.teachers.length

/-- A learner that is free reads the latest snapshot, unless it has seen it. -/
def learnerReads (w : Workshop σ) (i : Nat) : Workshop σ :=
  match w.learners[i]? with
  | some ⟨learner, seen, none⟩ =>
    match w.hub.snapshots.read seen with
    | .newer g k => { w with learners := w.learners.set i ⟨learner, g, some (g, k)⟩ }
    | _ => w
  | _ => w

/-- A learner that has read a snapshot answers. Candidates from an older snapshot never replace
newer ones. -/
def learnerAnswers (w : Workshop σ) (i : Nat) : Workshop σ :=
  match w.learners[i]? with
  | some ⟨learner, seen, some (g, k)⟩ =>
    let call := learner.call k
    let free := { w with learners := w.learners.set i ⟨call.learner, seen, none⟩ }
    match call.suggestion with
    | .ok cs =>
      { free with candidates := (w.candidates.offer (g, cs) fun pending => pending.1 ≤ g).2 }
    | .error e =>
      if w.hasRoom then { free with reports := w.reports ++ [.failed i g e] } else w
  | _ => w

/-- A teacher that is free reads the latest candidates, unless it has seen them. -/
def teacherReads (w : Workshop σ) (i : Nat) : Workshop σ :=
  match w.teachers[i]? with
  | some ⟨session, seen, none⟩ =>
    match w.candidates.read seen with
    | .newer g job => { w with teachers := w.teachers.set i ⟨session, g, some job⟩ }
    | _ => w
  | _ => w

/-- A teacher that has read candidates checks them and reports. -/
def teacherAnswers (w : Workshop σ) (i : Nat) : Workshop σ :=
  match w.teachers[i]? with
  | some ⟨session, seen, some (g, cs)⟩ =>
    if w.hasRoom then
      let (result, session) := Teacher.check w.system cs session
      { w with teachers := w.teachers.set i ⟨session, seen, none⟩
               reports := w.reports ++ [.checked g cs result] }
    else w
  | _ => w

/-- The hub receives a report, which leaves its place in the queue to another. With an outcome it
receives no more. -/
def hubReceives (w : Workshop σ) : Workshop σ :=
  match w.outcome, w.reports with
  | none, r :: rs => { w with reports := rs, batch := w.batch ++ [r] }
  | _, _ => w

/-- The hub applies the reports that it has received. An outcome ends the queue. -/
def hubApplies (w : Workshop σ) : Workshop σ :=
  match w.outcome, w.batch with
  | none, r :: rs =>
    match w.hub.applyBatch (r :: rs) with
    | .ok hub => { w with hub, batch := [] }
    | .error o => { w with outcome := some o, reports := [], batch := [] }
  | _, _ => w

/-- Make a move. -/
def move (w : Workshop σ) : Move → Workshop σ
  | .learnerReads i => w.learnerReads i
  | .learnerAnswers i => w.learnerAnswers i
  | .teacherReads i => w.teacherReads i
  | .teacherAnswers i => w.teacherAnswers i
  | .hubReceives => w.hubReceives
  | .hubApplies => w.hubApplies
  | .closeSnapshots => { w with hub := { w.hub with snapshots := w.hub.snapshots.close } }
  | .closeCandidates => { w with candidates := w.candidates.close }

/-- Make several moves in a row. -/
def play (w : Workshop σ) (moves : List Move) : Workshop σ := moves.foldl move w

theorem play_append (w : Workshop σ) (moves more : List Move) :
    w.play (moves ++ more) = (w.play moves).play more := List.foldl_append

theorem play_snoc (w : Workshop σ) (moves : List Move) (m : Move) :
    w.play (moves ++ [m]) = (w.play moves).move m := play_append w moves [m]

/-- A round in which every worker moves and the hub receives and applies all reports. -/
def round (w : Workshop σ) : List Move :=
  let learners := List.range w.learners.length
  let teachers := List.range w.teachers.length
  learners.map .learnerReads ++ learners.map .learnerAnswers ++
    teachers.map .teacherReads ++ teachers.map .teacherAnswers ++
      List.replicate (learners.length + teachers.length) .hubReceives ++ [.hubApplies]

/-- Rounds until there is an outcome. Gives also the workshop afterwards. -/
def run : Nat → Workshop σ → Outcome × Workshop σ
  | 0, w => (.error .disconnected, w)
  | fuel + 1, w =>
    let w := w.play w.round
    match w.outcome with
    | some o => (o, w)
    | none => run fuel w

/-- Infer invariants with several learners and teachers, at least one of each. -/
def infer (s : ClauseSystem) (c : InferenceConfig) (sessions : List σ) : Outcome × Workshop σ :=
  let learners := (List.range (max c.learners 1)).map (c.learner s)
  run (Coordinator.roundBound s) (start s learners sessions)

end Workshop

end LoopInvariant
