import LoopInvariant.Proofs.Retirement
/-!
# Calls to a builder and to systems made from it

A builder takes constraints and retires some of them, and the systems that are made from it take
guesses. Retiring constraints in between changes no answer: two builders that differ only in what is
retired answer every call alike and stay so, and retiring leads from one to another such builder.
-/

namespace LoopInvariant

/-! ## Calls and their answers -/

/-- What can be seen of a system besides the number of its active constraints. -/
structure View where
  constraints : Array Constraint
  points : PointIndex
  labels : SortedMap Datapoint Label

def Knowledge.view (k : Knowledge) : View := ⟨k.constraints, k.points, k.labels⟩

/-- A call to a builder, or to a system that was given a name. -/
inductive Call where
  | add (c : Constraint)
  | simplify
  | build (name : String)
  | withTrue (on name : String) (ds : List Datapoint)
  | withFalse (on name : String) (ds : List Datapoint)

def Call.isSimplify : Call → Bool
  | simplify => true
  | _ => false

inductive Answer where
  | added (r : Except Contradiction Bool)
  | retired (count : Nat)
  | system (r : Except Contradiction View)
  /-- There is no system of this name. -/
  | unknown

def Answer.isRetired : Answer → Bool
  | retired _ => true
  | _ => false

/-- A builder with the systems made so far. -/
structure Workbench where
  builder : Knowledge
  systems : SortedMap String Knowledge := ∅

namespace Workbench

def keep (w : Workbench) (name : String) : Except Contradiction Knowledge → Answer × Workbench
  | .ok k => (.system (.ok k.view), { w with systems := w.systems.insert name k })
  | .error e => (.system (.error e), w)

def speculate (w : Workbench) (on name : String)
    (guess : Knowledge → Except Contradiction Knowledge) : Answer × Workbench :=
  match w.systems.get? on with
  | some k => w.keep name (guess k)
  | none => (.unknown, w)

def call (w : Workbench) : Call → Answer × Workbench
  | .add c =>
    match w.builder.insert c with
    | .ok (added, next) => (.added (.ok added), { w with builder := next })
    | .error e => (.added (.error e), w)
  | .simplify => (.retired w.builder.simplify.1, { w with builder := w.builder.simplify.2 })
  | .build name => w.keep name (.ok w.builder)
  | .withTrue on name ds => w.speculate on name (·.withTrue ds)
  | .withFalse on name ds => w.speculate on name (·.withFalse ds)

def run (w : Workbench) : List Call → List Answer
  | [] => []
  | c :: calls => (w.call c).1 :: (w.call c).2.run calls

end Workbench

/-! ## Systems that differ in what is retired -/

namespace Knowledge

variable {k k' : Knowledge}

theorem SameButRetired.view_eq (h : SameButRetired k k') : k.view = k'.view := by
  show k.revived.view = k'.revived.view
  rw [h.revived_eq]

theorem SameButRetired.simplify_left (h : SameButRetired k k') : SameButRetired k.simplify.2 k' :=
  ⟨h.left.simplify, h.right, h.revived_eq⟩

/-- The same contradiction, or systems that differ in what is retired. -/
inductive SameOutcome : Except Contradiction Knowledge → Except Contradiction Knowledge → Prop where
  | error (e : Contradiction) : SameOutcome (.error e) (.error e)
  | ok {k k' : Knowledge} (h : SameButRetired k k') : SameOutcome (.ok k) (.ok k')

theorem SameButRetired.assume (h : SameButRetired k k') (cs : List Constraint) :
    SameOutcome (k.assume cs) (k'.assume cs) := by
  induction cs generalizing k k' with
  | nil => exact .ok h
  | cons c cs ih =>
    rw [Knowledge.assume, Knowledge.assume]
    rcases h.insert c with ⟨e, hk, hk'⟩ | ⟨added, n, n', hk, hk', hnext⟩
    · rw [hk, hk']
      exact .error e
    · rw [hk, hk']
      exact ih hnext

end Knowledge

open Knowledge

namespace Workbench

variable {w w' : Workbench}

/-- Workbenches that differ in what is retired. -/
structure Alike (w w' : Workbench) : Prop where
  builder : SameButRetired w.builder w'.builder
  systems : ∀ name, Option.Rel SameButRetired (w.systems.get? name) (w'.systems.get? name)

theorem Alike.keep (h : Alike w w') (name : String) {r r' : Except Contradiction Knowledge}
    (hr : SameOutcome r r') :
    (w.keep name r).1 = (w'.keep name r').1 ∧ Alike (w.keep name r).2 (w'.keep name r').2 := by
  cases hr with
  | error e => exact ⟨rfl, h⟩
  | @ok k k' hk =>
    refine ⟨?_, h.builder, fun other => ?_⟩
    · rw [Workbench.keep, Workbench.keep, hk.view_eq]
    · show Option.Rel SameButRetired ((w.systems.insert name k).get? other)
        ((w'.systems.insert name k').get? other)
      rw [SortedMap.get?_insert, SortedMap.get?_insert]
      split
      · exact .some hk
      · exact h.systems other

theorem Alike.speculate (h : Alike w w') (on name : String)
    {guess : Knowledge → Except Contradiction Knowledge}
    (hguess : ∀ k k', SameButRetired k k' → SameOutcome (guess k) (guess k')) :
    (w.speculate on name guess).1 = (w'.speculate on name guess).1 ∧
      Alike (w.speculate on name guess).2 (w'.speculate on name guess).2 := by
  have hon := h.systems on
  rw [Workbench.speculate, Workbench.speculate]
  cases hk : w.systems.get? on with
  | none =>
    rw [hk] at hon
    cases hk' : w'.systems.get? on with
    | none => exact ⟨rfl, h⟩
    | some k' =>
      rw [hk'] at hon
      cases hon
  | some k =>
    rw [hk] at hon
    cases hk' : w'.systems.get? on with
    | none =>
      rw [hk'] at hon
      cases hon
    | some k' =>
      rw [hk'] at hon
      cases hon with
      | some hsame => exact h.keep name (hguess k k' hsame)

/-- A call gets the same answer on both, unless it retires constraints. -/
theorem Alike.call (h : Alike w w') {c : Call} (hc : c.isSimplify = false) :
    (w.call c).1 = (w'.call c).1 ∧ Alike (w.call c).2 (w'.call c).2 := by
  cases c with
  | add c =>
    rw [Workbench.call, Workbench.call]
    rcases h.builder.insert c with ⟨e, hk, hk'⟩ | ⟨added, n, n', hk, hk', hnext⟩
    · rw [hk, hk']
      exact ⟨rfl, h⟩
    · rw [hk, hk']
      exact ⟨rfl, hnext, h.systems⟩
  | simplify => cases hc
  | build name => exact h.keep name (.ok h.builder)
  | withTrue on name ds => exact h.speculate on name fun k k' hsame => hsame.assume _
  | withFalse on name ds => exact h.speculate on name fun k k' hsame => hsame.assume _

theorem isRetired_keep (name : String) (r : Except Contradiction Knowledge) :
    (w.keep name r).1.isRetired = false := by
  cases r with
  | error e => rfl
  | ok k => rfl

theorem isRetired_speculate (on name : String) (guess : Knowledge → Except Contradiction Knowledge) :
    (w.speculate on name guess).1.isRetired = false := by
  rw [speculate]
  split
  · exact isRetired_keep name _
  · rfl

theorem isRetired_call (c : Call) : (w.call c).1.isRetired = c.isSimplify := by
  cases c with
  | add c =>
    rw [Workbench.call]
    split <;> rfl
  | simplify => rfl
  | build name => exact isRetired_keep name _
  | withTrue on name ds => exact isRetired_speculate on name _
  | withFalse on name ds => exact isRetired_speculate on name _

theorem Alike.simplify_left (h : Alike w w') : Alike (w.call .simplify).2 w' :=
  ⟨h.builder.simplify_left, h.systems⟩

theorem Alike.run (h : Alike w w') (calls : List Call) :
    (w.run calls).filter (fun a => !a.isRetired) = w'.run (calls.filter fun c => !c.isSimplify) := by
  induction calls generalizing w w' with
  | nil => rfl
  | cons c calls ih =>
    rw [Workbench.run, List.filter_cons, List.filter_cons, isRetired_call]
    cases hc : c.isSimplify with
    | true =>
      cases c with
      | simplify => exact ih h.simplify_left
      | _ => cases hc
    | false =>
      obtain ⟨hanswer, hnext⟩ := h.call hc
      show (w.call c).1 :: ((w.call c).2.run calls).filter _ =
        (w'.call c).1 :: (w'.call c).2.run _
      rw [hanswer, ih hnext]

end Workbench

/-- Constraints may be retired at any time in between: the other calls give the same answers, with
the same constraints, datapoints and labels for the same reasons, and the same contradictions. -/
theorem simplify_changes_no_answer {k : Knowledge} (hk : k.Reachable) (calls : List Call) :
    (Workbench.run ⟨k, ∅⟩ calls).filter (fun a => !a.isRetired) =
      Workbench.run ⟨k, ∅⟩ (calls.filter fun c => !c.isSimplify) := by
  have halike : Workbench.Alike ⟨k, ∅⟩ ⟨k, ∅⟩ :=
    ⟨⟨hk, hk, rfl⟩, fun _ => .none⟩
  exact halike.run calls

def reachedTwice : Knowledge :=
  (insertAll {} [⟨[], some ⟨0, .ofList [("x", .int 1)]⟩, .clause 0⟩,
    ⟨[⟨0, .ofList [("x", .int 1)]⟩], some ⟨0, .ofList [("x", .int 2)]⟩, .clause 1⟩]).2

/-- With both constraints retired, a failing state and a wrong guess are explained by them as if they
were not. -/
theorem reachedTwice_answers :
    reachedTwice.active = 2 ∧ reachedTwice.simplify.2.active = 0 ∧
      (Workbench.run ⟨reachedTwice, ∅⟩ [.simplify,
        .add ⟨[⟨0, .ofList [("x", .int 2)]⟩], none, .clause 2⟩, .build "a", .simplify,
        .withFalse "a" "b" [⟨0, .ofList [("x", .int 2)]⟩],
        .withTrue "a" "c" [⟨0, .ofList [("y", .int 5)]⟩]]).filter (fun a => !a.isRetired) =
      Workbench.run ⟨reachedTwice, ∅⟩
        [.add ⟨[⟨0, .ofList [("x", .int 2)]⟩], none, .clause 2⟩, .build "a",
          .withFalse "a" "b" [⟨0, .ofList [("x", .int 2)]⟩],
          .withTrue "a" "c" [⟨0, .ofList [("y", .int 5)]⟩]] := by
  have hk : reachedTwice.Reachable := (Reachable.empty.insertAll_snd _).1
  exact ⟨by decide +kernel, by decide +kernel, simplify_changes_no_answer hk _⟩

end LoopInvariant
