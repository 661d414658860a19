import LoopInvariant.Learner
import LoopInvariant.Teacher
/-!
# Coordination

Learning and teaching take turns: candidates are suggested from what is known, and each violated
clause adds to it. This ends when the candidates are inductive or when what is known is
contradictory.
-/

namespace LoopInvariant

/-- How many workers there are and what they may use. -/
structure InferenceConfig where
  learners : Nat := 1
  teachers : Nat := 1
  /-- Whether learners may use the atoms of the clauses. -/
  useAtoms : Bool := false
  deriving DecidableEq

namespace InferenceConfig

/-- Whether several workers run at the same time. -/
def isConcurrent (c : InferenceConfig) : Bool := 1 < c.learners || 1 < c.teachers

/-- A learner for a system of clauses. With atoms, candidates over the atoms alone are preferred; of
several learners each starts its turns at another place. -/
def learner (c : InferenceConfig) (s : ClauseSystem) (number : Nat) : Learner :=
  if c.useAtoms then
    let members : List Learner :=
      [.tree { decls := s.decls, useValues := false, atoms := s.atoms },
        .tree { decls := s.decls, atoms := s.atoms }]
    if c.isConcurrent then .startingAt members number else .fallback members
  else .tree { decls := s.decls }

end InferenceConfig

/-- The outcome of inference. -/
inductive Verdict where
  /-- Inductive invariants: the error location cannot be reached. -/
  | safe (cs : Candidates)
  /-- There are no invariants: the error location can be reached. -/
  | refuted (e : Contradiction)
  deriving DecidableEq

/-- Why inference gives no invariants. -/
inductive SolveError where
  | contradictory (e : Contradiction)
  /-- The learners have no candidates. -/
  | learner (e : LearnError)
  | session (e : SessionError)
  /-- The teacher said nothing new. -/
  | noProgress
  /-- The workers have stopped. -/
  | disconnected
  deriving DecidableEq

namespace SolveError

/-- The message of an error. -/
def message : SolveError → String
  | contradictory e => "program is unsafe: " ++ e.message
  | learner e => e.message
  | session e => e.message
  | noProgress => "no progress: the teacher reported only known constraints"
  | disconnected => "inference workers disconnected"

end SolveError

/-- One learner and one teacher. -/
structure Coordinator (σ : Type) where
  system : ClauseSystem
  learner : Learner
  session : σ
  knowledge : Knowledge := {}
  verdict : Option Verdict := none
  /-- The number of checks that were completed. -/
  rounds : Nat := 0
  /-- What was suggested last. -/
  suggested : Option Suggestion := none
  /-- The scripted learners that were called so far. -/
  asked : List String := []

namespace Coordinator

variable {σ : Type} [Session σ]

/-- Take over what a check of candidates found. -/
def learnFrom (c : Coordinator σ) (cs : Candidates) :
    Option (List Constraint) → Except SolveError Unit × Coordinator σ
  | none => (.ok (), { c with verdict := some (.safe cs) })
  | some found =>
    match c.knowledge.insertAll found with
    | (.error e, k) => (.ok (), { c with knowledge := k, verdict := some (.refuted e) })
    | (.ok 0, k) => (.error .noProgress, { c with knowledge := k })
    | (.ok _, k) => (.ok (), { c with knowledge := k.simplify.2 })

/-- A round: suggest candidates and check them. Nothing happens once there is a verdict. -/
def step (c : Coordinator σ) : Except SolveError Unit × Coordinator σ :=
  match c.verdict with
  | some _ => (.ok (), c)
  | none =>
    let call := c.learner.call c.knowledge
    let c := { c with learner := call.learner
                      suggested := some call.suggestion
                      asked := c.asked ++ call.asked }
    match call.suggestion with
    | .error e => (.error (.learner e), c)
    | .ok cs =>
      match Teacher.check c.system cs c.session with
      | (.error e, session) => (.error (.session e), { c with session })
      | (.ok found, session) => learnFrom { c with session, rounds := c.rounds + 1 } cs found

/-- What happened in a round. -/
structure Round where
  /-- What was known before. -/
  given : Knowledge
  suggested : Option Suggestion
  /-- The number of checks completed afterwards. -/
  rounds : Nat
  result : Except SolveError (Option Verdict)

/-- At most this many rounds, up to a verdict or an error, with a record of them. -/
def record : Nat → Coordinator σ → List Round × Coordinator σ
  | 0, c => ([], c)
  | n + 1, c =>
    let (r, next) := c.step
    let round : Round := ⟨c.knowledge, next.suggested, next.rounds, r.map fun _ => next.verdict⟩
    if r.isOk && next.verdict.isNone then
      let (rest, last) := record n next
      (round :: rest, last)
    else ([round], next)

/-- Rounds until there is a verdict or an error. Gives also the coordinator afterwards. -/
def run : Nat → Coordinator σ → Except SolveError Verdict × Coordinator σ
  | 0, c => (.error .noProgress, c)
  | fuel + 1, c =>
    match c.step with
    | (.error e, c) => (.error e, c)
    | (.ok (), c) =>
      match c.verdict with
      | some v => (.ok v, c)
      | none => run fuel c

/-- No more rounds than this are needed: every round without a verdict adds a constraint, and a
constraint is a clause with at most two valuations of the declared variables. -/
def roundBound (s : ClauseSystem) : Nat :=
  s.clauses.length * Nat.pow 18446744073709551619 (2 * s.decls.length) + 1

/-- Infer invariants with one learner and one teacher. -/
def infer (s : ClauseSystem) (learner : Learner) (session : σ) :
    Except SolveError Verdict × Coordinator σ :=
  run (roundBound s) { system := s, learner, session }

end Coordinator

/-- The invariants of a verdict; without them the program is not safe. -/
def Verdict.invariants : Verdict → Except SolveError Candidates
  | safe cs => .ok cs
  | refuted e => .error (.contradictory e)

end LoopInvariant
