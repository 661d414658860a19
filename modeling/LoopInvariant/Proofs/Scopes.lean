import LoopInvariant.Proofs.Dialogue
import LoopInvariant.Proofs.SessionCommands
import LoopInvariant.Session.Bounded
/-!
# Scopes are restored

Of a bounded session the asserted conjuncts are kept scope by scope, of a session with a solver
process the open scopes are counted. Both come back to what they were when something is done in a
scope of its own: whether the scope can be opened, what the requests in it come to, and whether it
can be closed.
-/

namespace LoopInvariant

open Session (Request Dialogue Layered Restores inquiry)
open Stateful (Keeps)

/-! ## Bounded sessions -/

namespace BoundedSession

/-- The conjuncts asserted in each scope, the innermost first, and outside all scopes. -/
def frames (s : BoundedSession) : List (List Term) := s.scopes ++ [s.base]

structure Above (frames : List (List Term)) (n : Nat) (s : BoundedSession) : Prop where
  ne_nil : frames ≠ []
  frames_eq : ∃ inner : List (List Term), inner.length = n ∧ s.frames = inner ++ frames

variable {frames : List (List Term)} {n : Nat} {s s' : BoundedSession}

theorem Above.of_frames_eq (h : s.Above frames n) (heq : s'.frames = s.frames) :
    s'.Above frames n := ⟨h.ne_nil, heq ▸ h.frames_eq⟩

theorem Above.exists_scope (h : s.Above frames (n + 1)) :
    ∃ top rest, s.scopes = top :: rest ∧
      ∃ inner : List (List Term), inner.length = n ∧ rest ++ [s.base] = inner ++ frames := by
  obtain ⟨inner, hlength, hframes⟩ := h.frames_eq
  cases inner with
  | nil => cases hlength
  | cons top inner =>
    cases hscopes : s.scopes with
    | nil =>
      rw [BoundedSession.frames, hscopes, List.nil_append, List.cons_append,
        List.cons.injEq] at hframes
      exact absurd (List.append_eq_nil_iff.1 hframes.2.symm).2 h.ne_nil
    | cons first rest =>
      rw [BoundedSession.frames, hscopes, List.cons_append, List.cons_append,
        List.cons.injEq] at hframes
      exact ⟨first, rest, rfl, inner, Nat.succ.inj hlength, hframes.2⟩

theorem Above.add (h : s.Above frames (n + 1)) (cs : List Term) :
    (s.add cs).Above frames (n + 1) := by
  obtain ⟨top, rest, hscopes, inner, hlength, hrest⟩ := h.exists_scope
  refine ⟨h.ne_nil, (top ++ cs) :: inner, congrArg Nat.succ hlength, ?_⟩
  rw [BoundedSession.add, hscopes]
  exact congrArg ((top ++ cs) :: ·) hrest

theorem Above.pop (h : s.Above frames (n + 1)) :
    ((Session.pop : SessionM BoundedSession Unit) s).2.Above frames n := by
  obtain ⟨top, rest, hscopes, hrest⟩ := h.exists_scope
  simp only [Session.pop, hscopes]
  exact ⟨h.ne_nil, hrest⟩

theorem frames_checkSat (s : BoundedSession) :
    ((Session.checkSat : SessionM BoundedSession _) s).2.frames = s.frames := by
  simp only [Session.checkSat]
  split
  · rfl
  · rfl
  · rfl

theorem frames_model (xs : List String) (s : BoundedSession) :
    ((Session.model xs : SessionM BoundedSession _) s).2.frames = s.frames := by
  simp only [Session.model]
  split
  · rfl
  · rfl

theorem layered : Layered BoundedSession.frames Above where
  start s := ⟨by simp [BoundedSession.frames], [], rfl, rfl⟩
  view_eq h := by
    obtain ⟨inner, hlength, hframes⟩ := h.frames_eq
    rwa [List.length_eq_zero_iff.1 hlength] at hframes
  opened h hpush := by
    cases hpush
    obtain ⟨inner, hlength, hframes⟩ := h.frames_eq
    exact ⟨h.ne_nil, [] :: inner, congrArg Nat.succ hlength, congrArg ([] :: ·) hframes⟩
  refused h hpush := by cases hpush
  closed h := h.pop
  flat {v n s q} hq h := by
    cases q with
    | push => cases hq
    | pop => cases hq
    | declare xs => exact h
    | assert t =>
      show ((Session.assert t : SessionM BoundedSession Unit) s).2.Above v (n + 1)
      simp only [Session.assert]
      split
      · exact h.add t.conjuncts
      · exact h
    | checkSat => exact h.of_frames_eq (frames_checkSat s)
    | model xs => exact h.of_frames_eq (frames_model xs s)
    | modelOf t xs => cases hq
  canceled h := h.of_frames_eq rfl

end BoundedSession

/-! ## Sessions with a solver process -/

namespace PipedSession

open Solver

/-- A property of sessions that actions on the solver keep, whatever they write, and that does not
depend on what was declared. -/
structure Steady (P : PipedSession → Prop) : Prop where
  perform : ∀ {β : Type} {kind : Sexp → Prop} {a : Action β}, Pipe.Writes kind a →
    Keeps P (perform a)
  declared : ∀ s xs, P s → P { s with declared := xs }
  cancel : ∀ s, P s → P (Session.cancel s)

namespace Steady

variable {P : PipedSession → Prop} (hP : Steady P)

include hP

theorem keeps_declareOne (x : String) : Keeps P (declareOne x) := by
  intro s hs
  rw [declareOne_run]
  split
  · exact hs
  · have hsort : Keeps P (Session.ofResult (s.signature.sortOf x)) := fun _ hs => hs
    refine hsort.bind (fun sort => ?_) s hs
    exact (hP.perform (Pipe.writes_send _)).bind fun _ s hs => hP.declared s _ hs

theorem keeps_declare (xs : List String) :
    Keeps P (Session.declare xs : SessionM PipedSession Unit) :=
  Stateful.keeps_forM hP.keeps_declareOne xs

theorem keeps_assert (t : Term) : Keeps P (Session.assert t : SessionM PipedSession Unit) :=
  (hP.keeps_declare t.vars).bind fun _ => hP.perform (Pipe.writes_send _)

theorem keeps_checkSat : Keeps P (Session.checkSat : SessionM PipedSession SatAnswer) := by
  intro s hs
  rw [checkSat_run]
  exact hP.perform Pipe.writes_checkSat s hs

theorem keeps_model (xs : List String) :
    Keeps P (Session.model xs : SessionM PipedSession Valuation) := by
  intro s hs
  rcases model_cases xs s with ⟨e, hrun⟩ | ⟨-, hrun⟩
  · rw [hrun]
    exact hs
  · rw [hrun]
    exact (hP.perform (Pipe.writes_values xs)).bind (fun _ _ hs => hs) s hs

theorem keeps_request {q : Request} (hq : q.isFlat = true) :
    Keeps P (q.run : SessionM PipedSession q.Reply) := by
  cases q with
  | push => cases hq
  | pop => cases hq
  | declare xs => exact hP.keeps_declare xs
  | assert t => exact hP.keeps_assert t
  | checkSat => exact hP.keeps_checkSat
  | model xs => exact hP.keeps_model xs
  | modelOf t xs => cases hq

end Steady

theorem steady_depth (n : Nat) : Steady fun s => s.depth = n where
  perform _ _ hs := hs
  declared _ _ hs := hs
  cancel _ hs := hs

theorem layered : Layered depth fun v n s => s.depth = v + n where
  start _ := rfl
  view_eq h := h
  opened {v n s s'} h hpush := by
    rw [push_run] at hpush
    obtain ⟨_, u, hsend, hcount⟩ := Stateful.exists_of_bind_eq hpush
    cases hcount
    have hdepth : s.depth = u.depth := congrArg (·.2.depth) hsend
    show u.depth + 1 = v + (n + 1)
    omega
  refused {v n s s' e} h hpush := by
    rw [push_run] at hpush
    rcases hsend : perform (Pipe.send opening) s with ⟨e | ⟨⟩, u⟩
    · rw [Stateful.bind_of_error hsend] at hpush
      cases hpush
      have hdepth : s.depth = s'.depth := congrArg (·.2.depth) hsend
      rwa [← hdepth]
    · rw [Stateful.bind_of_ok hsend] at hpush
      cases hpush
  closed {v n s} h := by
    rw [pop_run]
    split
    · omega
    · show s.depth - 1 = v + n
      omega
  flat hq h := (steady_depth _).keeps_request hq _ h
  canceled h := h

end PipedSession

/-! ## Both kinds -/

open Session in
/-- Scopes are restored. Let a program run in a scope of its own that, as far as it gets to run,
closes the scopes that it opens and no others. Afterwards the assertions are those from before,
scope by scope in a bounded session, and as many scopes are open with a solver process; and an error
of the program is the error that is returned. To look for a model is such a program, whatever its
outcome. -/
theorem scopes_restored {α : Type} (d : Dialogue α) (t : Term) (vars : List String) :
    (∀ s : BoundedSession, (∀ s', push s = (.ok (), s') → d.Balanced 0 s') →
      Restores BoundedSession.frames d.run s) ∧
    (∀ s : PipedSession, (∀ s', push s = (.ok (), s') → d.Balanced 0 s') →
      Restores PipedSession.depth d.run s) ∧
    (∀ s : BoundedSession, modelOf t vars s = inScope (inquiry t vars).run s ∧
      Restores BoundedSession.frames (inquiry t vars).run s) ∧
    ∀ s : PipedSession, modelOf t vars s = inScope (inquiry t vars).run s ∧
      Restores PipedSession.depth (inquiry t vars).run s := by
  have hflat := flat_inquiry t vars
  refine ⟨fun s hd => BoundedSession.layered.restores hd,
    fun s hd => PipedSession.layered.restores hd, fun s => ⟨?_, ?_⟩, fun s => ⟨?_, ?_⟩⟩
  · rw [modelOf_eq_inScope]
  · exact BoundedSession.layered.restores fun s' _ => hflat.balanced s'
  · rw [modelOf_eq_inScope]
  · exact PipedSession.layered.restores fun s' _ => hflat.balanced s'

/-- A program that asserts something, opens a scope and asserts something there, closes the scope
whatever came of it and reports what came of it. -/
def strayVariable : Dialogue Unit :=
  (Dialogue.request (.assert (.lit false))).bind fun _ =>
    (Dialogue.request .push).bind fun _ =>
      .ask (.assert (.var "stray@0")) fun r => .ask .pop fun _ => .done r

def twoFrames : BoundedSession :=
  { signature := SortedMap.ofList [("b", .bool)], radius := 1, base := [.var "b@0"]
    scopes := [[.not (.var "b@1")]] }

def killedInScope : PipedSession :=
  { pipe := { peer := {}, kills := { before := [0, 0, 0, 0, 0, 0, 0, 0, 0, 1] } }
    signature := SortedMap.ofList [], depth := 2 }

/-- The variable has no sort, and that is what is reported. The bounded session is left as it was;
the solver is killed before the inner scope is closed, and still the scopes are counted right. -/
theorem strayVariable_restored :
    ((Session.inScope strayVariable.run twoFrames).1 = .error (.unknownSort "stray@0") ∧
      (Session.inScope strayVariable.run twoFrames).2.frames =
        [[.not (.var "b@1")], [.var "b@0"]]) ∧
    (Session.inScope strayVariable.run killedInScope).1 = .error (.unknownSort "stray@0") ∧
    (Session.inScope strayVariable.run killedInScope).2.depth = 2 ∧
    (Session.inScope strayVariable.run killedInScope).2.pipe.status = .reaped := by
  obtain ⟨hbounded, hpiped, -, -⟩ := scopes_restored strayVariable (.lit true) []
  have hframes := hbounded twoFrames fun s' hs' => by
    cases hs'
    decide +kernel
  have hdepth := hpiped killedInScope fun s' hs' => by
    rw [← show (Session.push killedInScope).2 = s' from congrArg Prod.snd hs']
    decide +kernel
  refine ⟨⟨hframes.error_eq rfl (by decide +kernel), hframes.view_eq⟩, ?_, hdepth.view_eq,
    by decide +kernel⟩
  exact hdepth.error_eq (Prod.ext (by decide +kernel) rfl) (by decide +kernel)

end LoopInvariant
