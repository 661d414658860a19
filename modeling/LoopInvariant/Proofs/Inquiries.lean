import LoopInvariant.Proofs.Completion
/-!
# Inquiries leave no trace

A teacher asks one session again and again, and so do others that check on it. Every question is put
in a scope of its own, so a session in which nothing is asserted is the same after it, whatever the
answer was. Hence what is answered does not depend on what was asked before. Whether there is a
model does not depend on the variables whose values are wanted either, so gathering counterexamples
and counting violated clauses come to the same clauses.
-/

namespace LoopInvariant

/-! ## Actions on lists -/

namespace Stateful

variable {ε σ α β : Type} {P : σ → Prop} {f : α → ExceptT ε (StateM σ) (Option β)}

theorem keeps_filterMapM (hf : ∀ a, Keeps P (f a)) (as : List α) : Keeps P (as.filterMapM f) := by
  induction as with
  | nil =>
    rw [List.filterMapM_nil]
    exact fun s hs => hs
  | cons a as ih =>
    rw [List.filterMapM_cons]
    refine (hf a).bind fun r => ?_
    cases r with
    | none => exact ih
    | some b => exact ih.bind fun bs s hs => hs

theorem keeps_findSomeM? (hf : ∀ a, Keeps P (f a)) (as : List α) : Keeps P (as.findSomeM? f) := by
  induction as with
  | nil =>
    rw [List.findSomeM?_nil]
    exact fun s hs => hs
  | cons a as ih =>
    rw [List.findSomeM?_cons]
    refine (hf a).bind fun r => ?_
    cases r with
    | none => exact ih
    | some b => exact fun s hs => hs

end Stateful

/-! ## What an inquiry leaves -/

inductive Inquiry where
  | check (system : ClauseSystem) (cs : Candidates)
  | verify (system : ClauseSystem) (cs : Candidates)
  | failingPath (system : ClauseSystem)
  | modelOf (t : Term) (vars : List String)

namespace Inquiry

def after (s : BoundedSession) : Inquiry → BoundedSession
  | .check system cs => (Teacher.check system cs s).2
  | .verify system cs => (Teacher.verify system cs s).2
  | .failingPath system => (Teacher.failingPath? system s).2
  | .modelOf t vars => (Session.modelOf t vars s).2

end Inquiry

namespace Teacher

variable {P : BoundedSession → Prop}

theorem keeps_verify (hkeeps : ∀ t vars, Stateful.Keeps P (Session.modelOf t vars))
    (system : ClauseSystem) (cs : Candidates) : Stateful.Keeps P (verify system cs) := by
  apply Stateful.keeps_filterMapM
  intro numbered
  exact (hkeeps _ _).bind fun model s hs => hs

theorem keeps_failingPath? (hkeeps : ∀ t vars, Stateful.Keeps P (Session.modelOf t vars))
    (system : ClauseSystem) : Stateful.Keeps P (failingPath? system) := by
  apply Stateful.keeps_findSomeM?
  intro numbered
  obtain ⟨c, i⟩ := numbered
  dsimp only
  split
  · exact (hkeeps _ _).bind fun model s hs => hs
  · exact fun s hs => hs

end Teacher

theorem Inquiry.keeps_after {P : BoundedSession → Prop}
    (hkeeps : ∀ t vars, Stateful.Keeps P (Session.modelOf t vars)) {s : BoundedSession} (hs : P s)
    (i : Inquiry) : P (i.after s) := by
  cases i with
  | check system cs => exact Teacher.keeps_check hkeeps s hs
  | verify system cs => exact Teacher.keeps_verify hkeeps system cs s hs
  | failingPath system => exact Teacher.keeps_failingPath? hkeeps system s hs
  | modelOf t vars => exact hkeeps t vars s hs

namespace BoundedSession

variable {s : BoundedSession} {t : Term} {vars : List String}

/-- Without a model to forget, a question leaves a session as it was. -/
theorem modelOf_eq (hs : s.model = none) (t : Term) (vars : List String) :
    Session.modelOf t vars s = (s.opened.find t vars, s) := by
  rw [modelOf_run, ← hs]

theorem foldl_after_eq (hs : s.model = none) (earlier : List Inquiry) :
    earlier.foldl Inquiry.after s = s := by
  induction earlier with
  | nil => rfl
  | cons i earlier ih =>
    have hsame : i.after s = s := by
      refine Inquiry.keeps_after (P := (· = s)) ?_ rfl i
      intro t vars s' hs'
      rw [hs', modelOf_eq hs]
    rw [List.foldl_cons, hsame, ih]

/-- Which variables are of interest does not decide whether there is a model. -/
theorem isSome_find (hvars : s.needSorts vars = .ok ()) :
    (s.find t vars).map Option.isSome = (s.find t []).map Option.isSome := by
  rw [find, find, hvars, needSorts]
  cases s.needSorts t.vars with
  | error e => rfl
  | ok =>
    cases (s.add t.conjuncts).check with
    | error e => rfl
    | ok found =>
      cases found with
      | none => rfl
      | some m =>
        obtain ⟨v, hv⟩ := exists_complete m (needSorts_eq_ok.1 hvars) (SortedMap.ofList [])
        show ((s.complete m vars (SortedMap.ofList [])).map some).map Option.isSome = .ok true
        rw [hv]
        rfl

end BoundedSession

/-! ## Two ways to the violated clauses -/

namespace Teacher

variable {s : BoundedSession} {names : List String} {cs : Candidates}

def violated? (cs : Candidates) (numbered : Clause × Nat) :
    SessionM BoundedSession (Option Nat) := do
  let model ← Session.modelOf (numbered.1.violationWith cs cs.fallback) []
  pure (model.map fun _ => numbered.2)

theorem verify_eq (system : ClauseSystem) (cs : Candidates) :
    verify system cs = system.clauses.zipIdx.filterMapM (violated? cs) := rfl

theorem violated?_run (hs : s.model = none) (cs : Candidates) (c : Clause) (i : Nat) :
    violated? cs (c, i) s = ((s.opened.find (c.violation cs) []).map (·.map fun _ => i), s) := by
  rw [violated?, bind_pure_comp, Stateful.map_run]
  show ((Session.modelOf (c.violation cs) [] s).1.map _,
    (Session.modelOf (c.violation cs) [] s).2) = _
  rw [BoundedSession.modelOf_eq hs]

theorem gather_cons_run (hs : s.model = none) (c : Clause) (i : Nat) (rest : List (Clause × Nat)) :
    (gather names cs ((c, i) :: rest) s).1 =
      (s.opened.find (c.violation cs) (c.observed names)) >>= fun model =>
        (gather names cs rest s).1.map ((model.map (c.counterexample i names)).toList ++ ·) := by
  have hasked := BoundedSession.modelOf_eq hs (c.violation cs) (c.observed names)
  rw [gather]
  cases hfind : s.opened.find (c.violation cs) (c.observed names) with
  | error e =>
    rw [hfind] at hasked
    rw [Stateful.bind_of_error hasked]
    rfl
  | ok model =>
    rw [hfind] at hasked
    rw [Stateful.bind_of_ok hasked, bind_pure_comp, Stateful.map_run]
    rfl

theorem filterMapM_cons_run (hs : s.model = none) (c : Clause) (i : Nat)
    (rest : List (Clause × Nat)) :
    (((c, i) :: rest).filterMapM (violated? cs) s).1 =
      (s.opened.find (c.violation cs) []) >>= fun model =>
        (rest.filterMapM (violated? cs) s).1.map ((model.map fun _ => i).toList ++ ·) := by
  have hasked := violated?_run hs cs c i
  rw [List.filterMapM_cons]
  cases hfind : s.opened.find (c.violation cs) [] with
  | error e =>
    rw [hfind] at hasked
    rw [Stateful.bind_of_error hasked]
    rfl
  | ok model =>
    rw [hfind] at hasked
    rw [Stateful.bind_of_ok hasked]
    cases model with
    | none =>
      show (rest.filterMapM (violated? cs) s).1 = (rest.filterMapM (violated? cs) s).1.map ([] ++ ·)
      cases (rest.filterMapM (violated? cs) s).1 with
      | error e => rfl
      | ok is => rfl
    | some m =>
      show ((rest.filterMapM (violated? cs) >>= fun is => pure (i :: is)) s).1 = _
      rw [bind_pure_comp, Stateful.map_run]
      rfl

theorem map_eq_ok_nil {ε α β : Type} {xs : Except ε (List α)} {f : α → β} :
    xs.map (·.map f) = .ok [] ↔ xs = .ok [] := by
  cases xs with
  | error e => simp [Except.map]
  | ok l => simp [Except.map]

theorem map_append_congr {ε α β γ : Type} {xs : Except ε (List α)} {ys : Except ε (List β)}
    {f : α → γ} {g : β → γ} (h : xs.map (·.map f) = ys.map (·.map g)) {as : List α} {bs : List β}
    (hfront : as.map f = bs.map g) :
    (xs.map (as ++ ·)).map (·.map f) = (ys.map (bs ++ ·)).map (·.map g) := by
  cases xs with
  | error e =>
    rw [map_eq_error.1 h.symm]
    rfl
  | ok l =>
    obtain ⟨l', rfl, hl⟩ := map_eq_ok.1 h.symm
    show Except.ok ((as ++ l).map f) = .ok ((bs ++ l').map g)
    rw [List.map_append, List.map_append, hfront, hl]

theorem origins_gather (hs : s.model = none) (names : List String) (cs : Candidates)
    (numbered : List (Clause × Nat))
    (hsorts : ∀ c i, (c, i) ∈ numbered → s.opened.needSorts (c.observed names) = .ok ()) :
    (gather names cs numbered s).1.map (·.map Constraint.origin) =
      (numbered.filterMapM (violated? cs) s).1.map (·.map Origin.clause) := by
  induction numbered with
  | nil => rfl
  | cons x rest ih =>
    obtain ⟨c, i⟩ := x
    have hrest := ih fun c i hmem => hsorts c i (List.mem_cons_of_mem _ hmem)
    have hsame := BoundedSession.isSome_find (t := c.violation cs) (hsorts c i List.mem_cons_self)
    rw [gather_cons_run hs, filterMapM_cons_run hs]
    cases hfind : s.opened.find (c.violation cs) (c.observed names) with
    | error e =>
      rw [hfind] at hsame
      rw [map_eq_error.1 hsame.symm]
      rfl
    | ok model =>
      rw [hfind] at hsame
      obtain ⟨model', hfind', hsome⟩ := map_eq_ok.1 hsame.symm
      rw [hfind']
      apply map_append_congr hrest
      cases model with
      | none =>
        rw [Option.isSome_eq_false_iff.1 hsome |> Option.isNone_iff_eq_none.1]
        rfl
      | some m =>
        obtain ⟨m', rfl⟩ := Option.isSome_iff_exists.1 hsome
        rfl

theorem check_fst (system : ClauseSystem) (cs : Candidates) (s : BoundedSession) :
    (check system cs s).1 = (gather (system.decls.map (·.name)) cs system.clauses.zipIdx s).1.map
      fun found => if found.isEmpty then none else some found := by
  rw [check, bind_pure_comp, Stateful.map_run]

theorem origins_check (system : ClauseSystem) (cs : Candidates) (s : BoundedSession) :
    (check system cs s).1.map (fun r => (r.getD []).map Constraint.origin) =
      (gather (system.decls.map (·.name)) cs system.clauses.zipIdx s).1.map
        (·.map Constraint.origin) := by
  rw [check_fst]
  cases (gather (system.decls.map (·.name)) cs system.clauses.zipIdx s).1 with
  | error e => rfl
  | ok found =>
    cases found with
    | nil => rfl
    | cons k found => rfl

theorem check_eq_none (system : ClauseSystem) (cs : Candidates) (s : BoundedSession) :
    (check system cs s).1 = .ok none ↔
      (gather (system.decls.map (·.name)) cs system.clauses.zipIdx s).1 = .ok [] := by
  rw [check_fst, map_eq_ok]
  constructor
  · intro hnone
    obtain ⟨found, hfound, hempty⟩ := hnone
    rw [hfound]
    cases found with
    | nil => rfl
    | cons k found => cases hempty
  · exact fun hnil => ⟨[], hnil, rfl⟩

end Teacher

theorem ClauseSystem.exists_sortOf?_versioned (system : ClauseSystem) {x : String}
    (hx : x ∈ system.decls.map (·.name)) {k : Nat} (hk : k < 18446744073709551616) :
    ∃ sort, system.signature.sortOf? (versioned x k) = some sort := by
  obtain ⟨d, hd, rfl⟩ := List.mem_map.1 hx
  rw [Signature.sortOf?_versioned _ _ hk]
  obtain ⟨sort, hsort⟩ := SortedMap.exists_get?_ofList
    (List.mem_map_of_mem (f := fun d : VarDecl => (d.name, d.sort)) hd)
  exact ⟨sort, hsort⟩

theorem ClauseSystem.sorts_observed (system : ClauseSystem) {c : Clause}
    (hreadable : c.indexing.Readable) :
    ∀ x ∈ c.observed (system.decls.map (·.name)),
      ∃ sort, system.signature.sortOf? x = some sort := by
  intro x hx
  obtain ⟨y, hy, rfl | rfl⟩ := Clause.mem_observed hx
  · exact system.exists_sortOf?_versioned hy (Indexing.readable_initial y)
  · exact system.exists_sortOf?_versioned hy (hreadable y)

open Teacher

/-- A session that was made for a system answers whether candidates are inductive as if nothing had
been asked before. The clauses that its counterexamples come from are, in order, those that are
found violated by a new session, and candidates are accepted exactly if there are none. Versions
that are read back are those of a machine word. -/
theorem check_ignores_history {system : ClauseSystem} {radius : Int64} {fresh : BoundedSession}
    (hfresh : BoundedSession.ofRadius? system.signature radius = some fresh) (cs : Candidates)
    (earlier : List Inquiry) :
    (check system cs (earlier.foldl Inquiry.after fresh)).1 = (check system cs fresh).1 ∧
    ((∀ c ∈ system.clauses, c.indexing.Readable) →
      (check system cs (earlier.foldl Inquiry.after fresh)).1.map
          (fun r => (r.getD []).map Constraint.origin) =
        (verify system cs fresh).1.map (·.map Origin.clause) ∧
      ((check system cs (earlier.foldl Inquiry.after fresh)).1 = .ok none ↔
        (verify system cs fresh).1 = .ok [])) := by
  obtain ⟨r, -, rfl⟩ := Option.map_eq_some_iff.1 hfresh
  rw [BoundedSession.foldl_after_eq rfl]
  refine ⟨rfl, fun hreadable => ?_⟩
  have horigins := origins_gather
    (s := { signature := system.signature, radius := radius.toInt.natAbs }) rfl
    (system.decls.map (·.name)) cs system.clauses.zipIdx fun c i hmem =>
      BoundedSession.needSorts_eq_ok.2
        (system.sorts_observed (hreadable c (List.fst_mem_of_mem_zipIdx hmem)))
  rw [← verify_eq] at horigins
  refine ⟨(origins_check system cs _).trans horigins, ?_⟩
  rw [check_eq_none, ← map_eq_ok_nil (f := Constraint.origin), horigins, map_eq_ok_nil]

/-- Before a loop that any value enters is checked, the same session has failed to read a variable,
looked for another model and accepted other candidates. The counterexample it finds is of the only
clause that a new session finds violated. -/
theorem openLoop_inquiries :
    ∃ s fresh k, ClauseSystem.ofAutomaton openLoop = .ok s ∧
      BoundedSession.ofRadius? s.signature 1 = some fresh ∧
      let earlier : List Inquiry := [.modelOf (.var "y") [], .modelOf (.lit true) ["x"],
        .failingPath s, .verify s (.const []), .check s (.const [[]])]
      (check s (.const [[.rel .leq (.var "x") (.int 0)]]) (earlier.foldl Inquiry.after fresh)).1 =
        .ok (some [k]) ∧
      (verify s (.const [[.rel .leq (.var "x") (.int 0)]]) fresh).1 = .ok [0] := by
  let cs : Candidates := .const [[.rel .leq (.var "x") (.int 0)]]
  let k : Constraint := ⟨[], some ⟨1, .ofList [("x", .int 1)]⟩, .clause 0⟩
  have hx : (Term.var "x").HasSort (Signature.ofDecls openLoop.decls).get? .int := .var rfl
  have hsorted : openLoop.WellSorted := by
    simp only [Automaton.WellSorted, openLoop, havocLoop, List.forall_mem_cons,
      Statement.WellSorted]
    exact ⟨⟨trivial, .lit true, by simp⟩, by simp, ⟨.rel .geq hx (.int 1), by simp⟩, by simp⟩
  have hcheck : ∃ s, ClauseSystem.ofAutomaton openLoop = .ok s ∧
      (check s cs { signature := s.signature, radius := 1 : BoundedSession }).1 = .ok (some [k]) :=
    ⟨_, rfl, by decide +kernel⟩
  obtain ⟨s, hs, hcheck⟩ := hcheck
  have ha : Automaton.ofDescription openLoop.describe = .ok openLoop := rfl
  have hwell := ClauseSystem.wellSorted_of_ofAutomaton ha hsorted (by decide) hs
  have hfresh := BoundedSession.ofRadius?_eq_some s.signature
    (by decide : (1 : Int64) ≠ Int64.minValue)
  refine ⟨s, _, k, hs, hfresh, ?_⟩
  intro earlier
  obtain ⟨hsame, hagree⟩ := check_ignores_history hfresh cs earlier
  have hanswer := hsame.trans hcheck
  obtain ⟨horigins, -⟩ := hagree fun c hc => (hwell.clauses c hc).readable
  rw [hanswer] at horigins
  obtain ⟨is, hverify, hmap⟩ := map_eq_ok.1 horigins.symm
  have hmap : is.map Origin.clause = [.clause 0] := hmap
  obtain ⟨i, rest, rfl, hi, hrest⟩ := List.map_eq_cons_iff.1 hmap
  cases hi
  rw [List.map_eq_nil_iff.1 hrest] at hverify
  exact ⟨hanswer, hverify⟩

end LoopInvariant
