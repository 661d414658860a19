import LoopInvariant.Proofs.BoundedSearch
import LoopInvariant.Proofs.Killing
import LoopInvariant.Proofs.Scopes
/-!
# Canceled sessions

A session that was canceled stays so, whatever is asked of it later. With a solver process every
check fails from then on. A bounded session looks at the flag only when it is about to assign a
variable, so a check that comes to an end before that still gives an answer: if no variable occurs
in the assertions, or if one of them is false whatever the variables are. It is the answer that the
session would have given without the cancellation.
-/

namespace LoopInvariant

open Session (Dialogue)
open Solver (SatAnswer)
open Stateful (Keeps)

/-! ## Bounded sessions -/

namespace BoundedSession

/-- The search has to assign a variable: there is one, and no conjunct is false before. -/
def NeedsValues (cs : List Term) : Prop :=
  (∃ c ∈ cs, c.vars ≠ []) ∧ ∀ c ∈ cs, c.evalBool (fun _ => none) ≠ some false

variable {s : BoundedSession}

theorem kept_canceled : Session.Kept fun s : BoundedSession => s.canceled = true where
  push _ hs := hs
  pop s hs := by
    simp only [Session.pop]
    split <;> exact hs
  declare _ _ hs := hs
  assert t s hs := by
    simp only [Session.assert]
    split
    · rw [add]
      split <;> exact hs
    · exact hs
  checkSat s hs := by
    simp only [Session.checkSat]
    split <;> exact hs
  model xs s hs := by
    simp only [Session.model]
    split <;> exact hs
  cancel _ _ := rfl

theorem searchOrder_eq_nil {cs : List Term} : searchOrder cs = [] ↔ ∀ c ∈ cs, c.vars = [] := by
  simp only [List.eq_nil_iff_forall_not_mem, mem_searchOrder]
  constructor
  · exact fun h c hc x hx => h x ⟨c, hc, hx⟩
  · rintro h x ⟨c, hc, hx⟩
    exact h c hc x hx

theorem check_of_needsValues (hs : s.canceled = true) (h : NeedsValues s.conjuncts) :
    s.check = .error .canceled := by
  obtain ⟨⟨c, hc, hvars⟩, hopen⟩ := h
  have hnone : ¬ s.conjuncts.any
      (fun c => c.evalBool (SortedMap.ofList [] : Valuation).get? = some false) = true := by
    simp only [List.any_eq_true, decide_eq_true_eq, not_exists, not_and]
    exact hopen
  rw [check]
  cases horder : searchOrder s.conjuncts with
  | nil => exact absurd (searchOrder_eq_nil.1 horder c hc) hvars
  | cons x xs => rw [search, if_neg hnone, if_pos hs]

/-- A search that has no variable to assign does not look at the flag, and it ends. -/
theorem exists_check (h : ¬ NeedsValues s.conjuncts) :
    ∃ found, ∀ canceled, check { s with canceled } = .ok found := by
  cases horder : searchOrder s.conjuncts with
  | nil =>
    let start : Valuation := SortedMap.ofList []
    refine ⟨if s.conjuncts.all fun c => c.evalBool start.get? = some true then some start else none,
      fun canceled => ?_⟩
    show search _ s.conjuncts (searchOrder s.conjuncts) _ = _
    rw [horder, search]
  | cons x xs =>
    have hvars : ∃ c ∈ s.conjuncts, c.vars ≠ [] := by
      by_contra hnone
      push Not at hnone
      rw [searchOrder_eq_nil.2 hnone] at horder
      cases horder
    have hfalse : s.conjuncts.any
        (fun c => c.evalBool (SortedMap.ofList [] : Valuation).get? = some false) = true := by
      by_contra hany
      simp only [List.any_eq_true, decide_eq_true_eq, not_exists, not_and] at hany
      exact h ⟨hvars, hany⟩
    refine ⟨none, fun canceled => ?_⟩
    show search _ s.conjuncts (searchOrder s.conjuncts) _ = _
    rw [horder, search, if_pos hfalse]

theorem checkSat_of_check_error {e : SessionError} (h : s.check = .error e) :
    (Session.checkSat s).1 = .error e := by
  simp only [Session.checkSat, h]

theorem checkSat_of_check_ok {found : Option Valuation} (h : s.check = .ok found) :
    (Session.checkSat s).1 = .ok (if found.isSome then .sat else .unsat) := by
  cases found with
  | none => simp only [Session.checkSat, h]; rfl
  | some m => simp only [Session.checkSat, h]; rfl

end BoundedSession

/-! ## Sessions with a solver process -/

namespace PipedSession

/-- The session was canceled, and its solver with it. -/
structure Closed (s : PipedSession) : Prop where
  canceled : s.canceled = true
  ended : s.pipe.Ended

theorem closed_cancel (s : PipedSession) : Closed (Session.cancel s) :=
  ⟨rfl, Solver.Pipe.ended_kill s.pipe⟩

theorem steady_closed : Steady Closed where
  perform ha s hs := by
    refine ⟨hs.canceled, ha _ _ Solver.Pipe.stable_ended (fun p b hrunning hp => ?_) rfl
      (fun _ _ => rfl) _ hs.ended⟩
    cases hrunning.symm.trans hp
  declared _ _ hs := ⟨hs.canceled, hs.ended⟩
  cancel s _ := closed_cancel s

theorem kept_closed : Session.Kept Closed where
  push s hs := by
    rw [push_run]
    exact (steady_closed.perform (Solver.Pipe.writes_send _)).bind
      (fun _ s hs => ⟨hs.canceled, hs.ended⟩) s hs
  pop s hs := by
    rw [pop_run]
    split
    · exact hs
    · exact steady_closed.perform (Solver.Pipe.writes_send _) _ ⟨hs.canceled, hs.ended⟩
  declare := steady_closed.keeps_declare
  assert := steady_closed.keeps_assert
  checkSat := steady_closed.keeps_checkSat
  model := steady_closed.keeps_model
  cancel := steady_closed.cancel

/-- A solver that has ended answers no check, and the session says why. -/
theorem Closed.checkSat {s : PipedSession} (h : Closed s) :
    (Session.checkSat s).1 = .error .canceled := by
  have hrun : perform Solver.Pipe.checkSat s =
      (.error (.solver .killed), { s with pipe := s.pipe.interrupt.settle.2 }) := by
    rw [perform_run, Solver.Pipe.checkSat_eq,
      Stateful.bind_of_error (Solver.Pipe.send_of_ended h.ended _)]
    rfl
  simp only [Session.checkSat, hrun, h.canceled, if_true]

end PipedSession

/-! ## Both kinds -/

open BoundedSession in
/-- What a canceled session still answers. Whatever was asked of it since, a check with a solver
process fails as canceled. In a bounded session a check fails so exactly if the search has to assign
a variable; otherwise it gives the answer that it would give if nobody had canceled the session. -/
theorem canceled_checks {α : Type} (d : Dialogue α) (s : BoundedSession) (p : PipedSession) :
    (Session.checkSat (d.run (Session.cancel p)).2).1 = .error .canceled ∧
    ((Session.checkSat (d.run (Session.cancel s)).2).1 = .error .canceled ↔
      NeedsValues (d.run (Session.cancel s)).2.conjuncts) ∧
    (¬ NeedsValues (d.run (Session.cancel s)).2.conjuncts → ∃ answer,
      (Session.checkSat (d.run (Session.cancel s)).2).1 = .ok answer ∧
      (Session.checkSat { (d.run (Session.cancel s)).2 with canceled := false }).1 =
        .ok answer) := by
  have hclosed := PipedSession.kept_closed.run d _ (PipedSession.closed_cancel p)
  have hcanceled : (d.run (Session.cancel s)).2.canceled = true := kept_canceled.run d _ rfl
  generalize (d.run (Session.cancel s)).2 = s' at hcanceled
  have hanswer : ¬ NeedsValues s'.conjuncts → ∃ answer, (Session.checkSat s').1 = .ok answer ∧
      (Session.checkSat { s' with canceled := false }).1 = .ok answer := by
    intro hnot
    obtain ⟨found, hfound⟩ := exists_check hnot
    exact ⟨_, checkSat_of_check_ok (hfound s'.canceled), checkSat_of_check_ok (hfound false)⟩
  refine ⟨hclosed.checkSat, ⟨fun herror => ?_, fun hneeds => ?_⟩, hanswer⟩
  · by_contra hnot
    obtain ⟨answer, hok, -⟩ := hanswer hnot
    cases herror.symm.trans hok
  · exact checkSat_of_check_error (check_of_needsValues hcanceled hneeds)

def switchSession : BoundedSession := { signature := SortedMap.ofList [("b", .bool)], radius := 1 }

/-- An assertion that needs a value makes the check after it fail, one that is false anyway does
not. With a solver process both fail. -/
theorem switchSession_canceled :
    let d : Dialogue Unit := .request (.assert (.var "b@0"))
    let e : Dialogue Unit := .request (.assert (.nary .and [.lit false, .var "b@0"]))
    ((Session.checkSat (d.run (Session.cancel switchSession)).2).1 = .error .canceled ∧
      ∃ answer, (Session.checkSat (e.run (Session.cancel switchSession)).2).1 = .ok answer) ∧
    (Session.checkSat (d.run (Session.cancel killedInScope)).2).1 = .error .canceled ∧
    (Session.checkSat (e.run (Session.cancel killedInScope)).2).1 = .error .canceled := by
  intro d e
  obtain ⟨hpiped, hneeds, -⟩ := canceled_checks d switchSession killedInScope
  obtain ⟨hpiped', -, hanswers⟩ := canceled_checks e switchSession killedInScope
  refine ⟨⟨hneeds.2 ⟨⟨.var "b@0", ?_, ?_⟩, ?_⟩, ?_⟩, hpiped, hpiped'⟩
  · decide +kernel
  · decide +kernel
  · decide +kernel
  · obtain ⟨answer, hanswer, -⟩ := hanswers fun hneeds =>
      hneeds.2 (.lit false) (by decide +kernel) rfl
    exact ⟨answer, hanswer⟩

/-- Canceled sessions that still answer: nothing is asserted, or something false next to a
variable. -/
theorem canceled_session_answers :
    (Session.checkSat (Session.cancel switchSession)).1 = .ok .sat ∧
    (Session.checkSat (Session.assert (.nary .and [.lit false, .var "b@0"])
      (Session.cancel switchSession)).2).1 = .ok .unsat := by
  decide +kernel

end LoopInvariant
