import LoopInvariant.DecisionTree.Growth
/-!
# Learners

A learner suggests candidates that fit what is known. Learners can be combined: one after the other
until one succeeds, or in turns.
-/

namespace LoopInvariant

/-- What a learner comes up with. -/
abbrev Suggestion := Except LearnError Candidates

/-- A learner with what it remembers between calls. -/
inductive Learner where
  | tree (t : TreeLearner)
  /-- The first member that succeeds. -/
  | fallback (members : List Learner)
  /-- Like a fallback, but every call starts at the next member. -/
  | roundRobin (members : List Learner) (next : Nat)
  /-- Suggestions from a list, the last of which repeats. -/
  | scripted (name : String) (script : List Suggestion)

namespace Learner

/-- Members in turns, the first call starting at a given one. -/
def startingAt (members : List Learner) (start : Nat) : Learner :=
  .roundRobin members (start % members.length)

mutual

/-- The name of a learner. -/
def name : Learner → String
  | tree t => t.name
  | fallback ms => "fallback[" ++ ", ".intercalate (names ms) ++ "]"
  | roundRobin ms _ => "round-robin[" ++ ", ".intercalate (names ms) ++ "]"
  | scripted n _ => n

/-- The names of learners. -/
def names : List Learner → List String
  | [] => []
  | l :: ls => name l :: names ls

end

/-- The outcome of a call: the suggestion, the learner afterwards, and the names of the scripted
learners that were called. -/
structure Call where
  suggestion : Suggestion
  learner : Learner
  asked : List String

/-- A member with what a call of it does. -/
abbrev Member := Learner × (Knowledge → Call)

/-- The outcome of a call of several members, with all of them afterwards. -/
structure Trial where
  suggestion : Except (List String) Candidates
  members : List Learner
  asked : List String

/-- Call members in order until one succeeds. If all fail, their reasons are kept. -/
def inOrder (k : Knowledge) : List Member → Trial
  | [] => ⟨.error [], [], []⟩
  | (l, call) :: rest =>
    let c := call k
    match c.suggestion with
    | .ok found => ⟨.ok found, c.learner :: rest.map (·.1), c.asked⟩
    | .error e =>
      let t := inOrder k rest
      let reason := l.name ++ ": " ++ e.reason
      ⟨t.suggestion.mapError (reason :: ·), c.learner :: t.members, c.asked ++ t.asked⟩

/-- The suggestion of a trial. -/
def Trial.result (t : Trial) : Suggestion :=
  t.suggestion.mapError fun reasons =>
    .notExpressible (if reasons.isEmpty then "no learners" else "; ".intercalate reasons)

mutual

/-- Ask a learner for candidates. -/
def call : Learner → Knowledge → Call
  | tree t, k => ⟨(t.learn k).map DecisionTree.candidates, tree t, []⟩
  | fallback ms, k =>
    let t := inOrder k (withCalls ms)
    ⟨t.result, fallback t.members, t.asked⟩
  | roundRobin ms next, k =>
    let members := withCalls ms
    let t := inOrder k (members.drop next ++ members.take next)
    let later := members.length - next
    ⟨t.result, roundRobin (t.members.drop later ++ t.members.take later)
      ((next + 1) % members.length), t.asked⟩
  | scripted n script, _ =>
    match script with
    | [] => ⟨.error (.notExpressible "no suggestions"), scripted n [], [n]⟩
    | [s] => ⟨s, scripted n [s], [n]⟩
    | s :: rest => ⟨s, scripted n rest, [n]⟩

/-- Learners with what calls of them do. -/
def withCalls : List Learner → List Member
  | [] => []
  | l :: ls => (l, call l) :: withCalls ls

end

/-- Several calls in a row on the same knowledge. -/
def calls (k : Knowledge) : Nat → Learner → List Call
  | 0, _ => []
  | n + 1, l =>
    let c := l.call k
    c :: calls k n c.learner

end Learner

end LoopInvariant
