import LoopInvariant.Proofs.BoundedSearch
import LoopInvariant.Proofs.Stateful
import LoopInvariant.Teacher
/-!
# What a teacher with a bounded session reports

A session in which nothing is asserted answers every question on its own and is left as it was. So
a teacher accepts candidates only if no state in the box violates a clause, and each constraint it
reports comes from a model of a violation.
-/

namespace LoopInvariant

namespace BoundedSession

/-! ## One question -/

def opened (s : BoundedSession) : BoundedSession :=
  { s with scopes := [] :: s.scopes, model := none }

/-- An action in a scope of its own, if it leaves the scopes below alone. -/
theorem inScope_run {α : Type} {a : SessionM BoundedSession α} {s s' : BoundedSession}
    {r : Except SessionError α} {top : List Term} (ha : a s.opened = (r, s'))
    (hscopes : s'.scopes = top :: s.scopes) :
    Session.inScope a s = (r, { s' with scopes := s.scopes, model := none }) := by
  have hpush : (Session.push : SessionM BoundedSession Unit) s = (.ok (), s.opened) := rfl
  have hattempt : Session.attempt a s.opened = (.ok r, s') := by rw [Session.attempt, ha]
  have hpop : Session.attempt (Session.pop : SessionM BoundedSession Unit) s' =
      (.ok (.ok ()), { s' with scopes := s.scopes, model := none }) := by
    simp only [Session.attempt, Session.pop, hscopes]
  rw [Session.inScope, Stateful.bind_of_ok hpush, Stateful.bind_of_ok hattempt,
    Stateful.bind_of_ok hpop]
  cases r <;> rfl

theorem complete_congr {s s' : BoundedSession} (h : s.signature = s'.signature) (m : Valuation)
    (xs : List String) (v : Valuation) : s.complete m xs v = s'.complete m xs v := by
  induction xs generalizing v with
  | nil => rfl
  | cons x xs ih => simp only [complete, ih, h]

def find (s : BoundedSession) (t : Term) (vars : List String) :
    Except SessionError (Option Valuation) := do
  s.needSorts vars
  s.needSorts t.vars
  match ← (s.add t.conjuncts).check with
  | some m => (s.complete m vars (SortedMap.ofList [])).map some
  | none => return none

section Operations

open Stateful

variable {s : BoundedSession} {t : Term} {e : SessionError}

theorem assert_of_ok (h : s.needSorts t.vars = .ok ()) :
    (Session.assert t : SessionM BoundedSession Unit) s = (.ok (), s.add t.conjuncts) := by
  simp only [Session.assert, h]

theorem assert_of_error (h : s.needSorts t.vars = .error e) :
    (Session.assert t : SessionM BoundedSession Unit) s = (.error e, s) := by
  simp only [Session.assert, h]

theorem checkSat_of_some {m : Valuation} (h : s.check = .ok (some m)) :
    (Session.checkSat : SessionM BoundedSession _) s = (.ok .sat, { s with model := some m }) := by
  simp only [Session.checkSat, h]

theorem checkSat_of_none (h : s.check = .ok none) :
    (Session.checkSat : SessionM BoundedSession _) s = (.ok .unsat, s) := by
  simp only [Session.checkSat, h]

theorem checkSat_of_error (h : s.check = .error e) :
    (Session.checkSat : SessionM BoundedSession _) s = (.error e, s) := by
  simp only [Session.checkSat, h]

theorem model_of_some {m : Valuation} (h : s.model = some m) (vars : List String) :
    (Session.model vars : SessionM BoundedSession _) s =
      (s.complete m vars (SortedMap.ofList []), s) := by
  simp only [Session.model, h]

theorem modelOf_run (s : BoundedSession) (t : Term) (vars : List String) :
    Session.modelOf t vars s = (s.opened.find t vars, { s with model := none }) := by
  have hdeclare : (Session.declare vars : SessionM BoundedSession Unit) s.opened =
      (s.opened.needSorts vars, s.opened) := rfl
  rw [Session.modelOf, find]
  cases hvars : s.opened.needSorts vars with
  | error e =>
    rw [hvars] at hdeclare
    rw [inScope_run (bind_of_error hdeclare) rfl]
    rfl
  | ok =>
    rw [hvars] at hdeclare
    cases hterm : s.opened.needSorts t.vars with
    | error e =>
      rw [inScope_run ((bind_of_ok hdeclare).trans (bind_of_error (assert_of_error hterm))) rfl]
      rfl
    | ok =>
      have hassert := assert_of_ok hterm
      cases hcheck : (s.opened.add t.conjuncts).check with
      | error e =>
        have hsat := checkSat_of_error hcheck
        rw [inScope_run ((bind_of_ok hdeclare).trans ((bind_of_ok hassert).trans
          (bind_of_error hsat))) rfl]
        rfl
      | ok found =>
        cases found with
        | none =>
          have hsat := checkSat_of_none hcheck
          rw [inScope_run ((bind_of_ok hdeclare).trans ((bind_of_ok hassert).trans
            (bind_of_ok hsat))) rfl]
          rfl
        | some m =>
          have hsat := checkSat_of_some hcheck
          have hcomplete : complete { s.opened.add t.conjuncts with model := some m } m vars
              (SortedMap.ofList []) = s.opened.complete m vars (SortedMap.ofList []) :=
            complete_congr (by rfl) m vars _
          have hvalues := map_run some (Session.model vars)
            { s.opened.add t.conjuncts with model := some m }
          rw [model_of_some rfl, hcomplete] at hvalues
          rw [inScope_run ((bind_of_ok hdeclare).trans ((bind_of_ok hassert).trans
            ((bind_of_ok hsat).trans hvalues))) rfl]
          rfl

end Operations

def fill (s : BoundedSession) (m : Valuation) : State := fun x =>
  (m.get? x).getD ((s.signature.sortOf? x).elim default Value.ofSort)

theorem complete_eq_ok {s : BoundedSession} {m v r : Valuation} {xs : List String}
    (h : s.complete m xs v = .ok r) {x : String}
    (hx : x ∈ xs ∨ v.get? x = some (s.fill m x)) : r.get? x = some (s.fill m x) := by
  induction xs generalizing v with
  | nil =>
    cases h
    exact hx.resolve_left List.not_mem_nil
  | cons y xs ih =>
    -- whichever way the next variable gets its value, it is the one of `fill`
    have hnext : s.complete m xs (v.insert y (s.fill m y)) = .ok r := by
      rw [complete] at h
      split at h
      · next a ha =>
        have hfill : s.fill m y = a := by rw [fill, ha, Option.getD_some]
        rwa [hfill]
      · next hnone =>
        rw [Signature.sortOf] at h
        cases hsort : s.signature.sortOf? y with
        | none =>
          rw [hsort] at h
          cases h
        | some sort =>
          rw [hsort] at h
          have hfill : s.fill m y = .ofSort sort := by
            rw [fill, hnone, hsort]
            rfl
          rwa [hfill]
    refine ih hnext ?_
    by_cases heq : x = y
    · exact .inr (by rw [heq, SortedMap.get?_insert_self])
    · rw [SortedMap.get?_insert_of_ne _ _ heq]
      exact hx.imp_left fun hmem => (List.mem_cons.1 hmem).resolve_left heq

/-- A session in which nothing is asserted. -/
structure Fresh (sig : Signature) (radius : Nat) (s : BoundedSession) : Prop where
  signature_eq : s.signature = sig
  radius_eq : s.radius = radius
  base_eq : s.base = []
  scopes_eq : s.scopes = []

theorem fresh_of_ofRadius? {sig : Signature} {radius : Int64} {s : BoundedSession}
    (h : ofRadius? sig radius = some s) : s.Fresh sig radius.toInt.natAbs := by
  obtain ⟨_, -, rfl⟩ := Option.map_eq_some_iff.1 h
  exact ⟨rfl, rfl, rfl, rfl⟩

variable {sig : Signature} {radius : Nat} {s : BoundedSession}

theorem conjuncts_opened (s : BoundedSession) (cs : List Term) :
    (s.opened.add cs).conjuncts = s.conjuncts ++ cs := by
  simp [conjuncts, opened, add]

theorem Fresh.conjuncts_nil (h : s.Fresh sig radius) : s.conjuncts = [] := by
  rw [conjuncts, h.base_eq, h.scopes_eq]
  rfl

theorem Fresh.conjuncts_eq (h : s.Fresh sig radius) (cs : List Term) :
    (s.opened.add cs).conjuncts = cs := by
  rw [conjuncts_opened, h.conjuncts_nil, List.nil_append]

theorem Fresh.modelOf (h : s.Fresh sig radius) (t : Term) (vars : List String) :
    (Session.modelOf t vars s).2.Fresh sig radius := by
  rw [modelOf_run]
  exact ⟨h.signature_eq, h.radius_eq, h.base_eq, h.scopes_eq⟩

theorem needSorts_eq_ok {xs : List String} :
    s.needSorts xs = .ok () ↔ ∀ x ∈ xs, ∃ sort, s.signature.sortOf? x = some sort := by
  induction xs with
  | nil => simp [needSorts]
  | cons x xs ih =>
    rw [needSorts, Signature.sortOf, List.forall_mem_cons]
    cases s.signature.sortOf? x with
    | none => simp
    | some sort => simpa using ih

/-- What a search found behind a model: values that make true all that is asserted, and the formula.
The model fills in what is left open. -/
theorem exists_found {t : Term} {vars : List String} {m : Valuation}
    (hmodel : (Session.modelOf t vars s).1 = .ok (some m)) :
    ∃ found, (s.opened.add t.conjuncts).check = .ok (some found) ∧
      t.evalBool found.get? = some true ∧
      (∀ x ∈ t.vars, ∃ sort, s.signature.sortOf? x = some sort) ∧
      ∀ x ∈ vars, m.get? x = some (s.opened.fill found x) := by
  rw [modelOf_run, find] at hmodel
  obtain ⟨⟨⟩, -, hmodel⟩ := bind_eq_ok.1 hmodel
  obtain ⟨⟨⟩, hsorts, hmodel⟩ := bind_eq_ok.1 hmodel
  obtain ⟨found, hcheck, hmodel⟩ := bind_eq_ok.1 hmodel
  cases found with
  | none => cases hmodel
  | some found =>
    obtain ⟨r, hcomplete, heq⟩ := map_eq_ok.1 hmodel
    cases heq
    have htrue : ∀ c ∈ (s.opened.add t.conjuncts).conjuncts, c.evalBool found.get? = some true :=
      search_eq_some hcheck
    rw [conjuncts_opened, List.forall_mem_append] at htrue
    exact ⟨found, hcheck, Term.evalBool_eq_true_iff_conjuncts.2 htrue.2,
      (needSorts_eq_ok (s := s.opened)).1 hsorts, fun x hx => complete_eq_ok hcomplete (.inl hx)⟩

theorem modelOf_eq_some {t : Term} {vars : List String} {m : Valuation}
    (hmodel : (Session.modelOf t vars s).1 = .ok (some m)) :
    ∃ w : State, t.evalBool w.env = some true ∧ ∀ x ∈ vars, m.get? x = some (w x) := by
  obtain ⟨found, -, htrue, -, hvalues⟩ := exists_found hmodel
  refine ⟨s.opened.fill found, ?_, hvalues⟩
  refine Term.evalBool_mono (fun x a hx => ?_) htrue
  rw [State.env, fill, hx, Option.getD_some]

theorem Fresh.exists_found (h : s.Fresh sig radius) {t : Term} {vars : List String}
    {m : Valuation} (hmodel : (Session.modelOf t vars s).1 = .ok (some m)) :
    ∃ found, (s.opened.add t.conjuncts).search t.conjuncts (searchOrder t.conjuncts)
        (SortedMap.ofList []) = .ok (some found) ∧
      t.evalBool found.get? = some true ∧
      (∀ x a, found.get? x = some a → ∃ sort, sig.sortOf? x = some sort) ∧
      ∀ x ∈ vars, m.get? x = some (s.opened.fill found x) := by
  obtain ⟨found, hcheck, htrue, hsorts, hvalues⟩ := BoundedSession.exists_found hmodel
  rw [check, h.conjuncts_eq] at hcheck
  refine ⟨found, hcheck, htrue, fun x a hx => ?_, hvalues⟩
  rcases get?_of_search hcheck hx with hmem | hnone
  · obtain ⟨c, hc, hx⟩ := mem_searchOrder.1 hmem
    have hvar := Term.occurrences_of_conjuncts hc (Term.mem_vars_iff.1 hx)
    obtain ⟨sort, hsort⟩ := hsorts x (Term.mem_vars_iff.2 hvar)
    exact ⟨sort, h.signature_eq ▸ hsort⟩
  · cases hnone

/-- If nothing is asserted and no model is found, no state of the box makes the formula true. -/
theorem modelOf_eq_none (hempty : s.conjuncts = []) {t : Term} {vars : List String}
    (hmodel : (Session.modelOf t vars s).1 = .ok none) {w : State}
    (hbox : InBox s.signature s.radius w) : t.evalBool w.env ≠ some true := by
  intro htrue
  rw [modelOf_run, find] at hmodel
  obtain ⟨⟨⟩, -, hmodel⟩ := bind_eq_ok.1 hmodel
  obtain ⟨⟨⟩, -, hmodel⟩ := bind_eq_ok.1 hmodel
  obtain ⟨found, hcheck, hmodel⟩ := bind_eq_ok.1 hmodel
  cases found with
  | some found =>
    obtain ⟨r, -, heq⟩ := map_eq_ok.1 hmodel
    cases heq
  | none =>
    have hbox' : InBox (s.opened.add t.conjuncts).signature (s.opened.add t.conjuncts).radius w :=
      hbox
    refine search_ne_none hbox' ?_ ?_ ?_ hcheck
    · rw [conjuncts_opened, hempty]
      exact Term.evalBool_eq_true_iff_conjuncts.1 htrue
    · intro x a hx
      cases hx
    · exact fun c hc x hx => .inl (mem_searchOrder.2 ⟨c, hc, hx⟩)

theorem Fresh.modelOf_eq_none (h : s.Fresh sig radius) {t : Term} {vars : List String}
    (hmodel : (Session.modelOf t vars s).1 = .ok none) {w : State} (hbox : InBox sig radius w) :
    t.evalBool w.env ≠ some true := by
  rw [← h.signature_eq, ← h.radius_eq] at hbox
  exact BoundedSession.modelOf_eq_none h.conjuncts_nil hmodel hbox

end BoundedSession

/-! ## All clauses -/

namespace Teacher

section AnySession

variable {σ : Type} [Session σ] {P : σ → Prop} {s : σ} {cs : Candidates} {system : ClauseSystem}

theorem keeps_gather (hkeeps : ∀ t vars, Stateful.Keeps P (Session.modelOf t vars))
    (names : List String) (cs : Candidates) (numbered : List (Clause × Nat)) :
    Stateful.Keeps P (gather names cs numbered) := by
  induction numbered with
  | nil => exact fun s hs => hs
  | cons x rest ih =>
    refine .bind (hkeeps _ _) fun model => .bind ih fun found => ?_
    exact fun s hs => hs

/-- Each constraint that is gathered comes from a model that some session gave, and if none is
gathered, every session said that there is none. -/
theorem gather_eq_ok (hkeeps : ∀ t vars, Stateful.Keeps P (Session.modelOf t vars))
    {names : List String} {numbered : List (Clause × Nat)} (h : P s) {found : List Constraint}
    (hfound : ((gather names cs numbered : SessionM σ _) s).1 = .ok found) :
    (∀ k ∈ found, ∃ c i m s', (c, i) ∈ numbered ∧ P s' ∧
      (Session.modelOf (c.violation cs) (c.observed names) s').1 = .ok (some m) ∧
      k = c.counterexample i names m) ∧
    (found = [] → ∀ c i, (c, i) ∈ numbered → ∃ s', P s' ∧
      (Session.modelOf (c.violation cs) (c.observed names) s').1 = .ok none) := by
  induction numbered generalizing s found with
  | nil =>
    cases hfound
    simp
  | cons x rest ih =>
    obtain ⟨c, i⟩ := x
    obtain ⟨model, hmodel, hfound⟩ := Stateful.exists_of_bind hfound
    obtain ⟨more, hmore, hfound⟩ := Stateful.exists_of_bind hfound
    cases hfound
    obtain ⟨hshown, hkept⟩ := ih (hkeeps _ _ s h) hmore
    have hlater : ∀ k ∈ more, ∃ c' i' m s', (c', i') ∈ (c, i) :: rest ∧ P s' ∧
        (Session.modelOf (c'.violation cs) (c'.observed names) s').1 = .ok (some m) ∧
        k = c'.counterexample i' names m := by
      intro k hk
      obtain ⟨c', i', m, s', hmem, hrest⟩ := hshown k hk
      exact ⟨c', i', m, s', List.mem_cons_of_mem _ hmem, hrest⟩
    cases model with
    | none =>
      refine ⟨hlater, fun hempty c' i' hmem => ?_⟩
      rcases List.mem_cons.1 hmem with heq | hmem
      · cases heq
        exact ⟨s, h, hmodel⟩
      · exact hkept hempty c' i' hmem
    | some m =>
      refine ⟨fun k hk => ?_, fun hempty => by cases hempty⟩
      rcases List.mem_cons.1 hk with rfl | hk
      · exact ⟨c, i, m, s, List.mem_cons_self, h, hmodel, rfl⟩
      · exact hlater k hk

theorem keeps_check (hkeeps : ∀ t vars, Stateful.Keeps P (Session.modelOf t vars)) :
    Stateful.Keeps P (check system cs) :=
  .bind (keeps_gather hkeeps _ _ _) fun _ _ hs => hs

theorem gather_of_check {found : List Constraint}
    (hcheck : ((check system cs : SessionM σ _) s).1 = .ok (some found)) :
    found ≠ [] ∧
      ((gather (system.decls.map (·.name)) cs system.clauses.zipIdx : SessionM σ _) s).1 =
        .ok found := by
  obtain ⟨gathered, hgathered, hsome⟩ := Stateful.exists_of_bind hcheck
  have heq : (if gathered.isEmpty then none else some gathered) = some found :=
    Except.ok.inj hsome
  split at heq
  · cases heq
  · next hnonempty =>
    cases heq
    exact ⟨fun hnil => hnonempty (List.isEmpty_iff.2 hnil), hgathered⟩

theorem reported_of_check (hkeeps : ∀ t vars, Stateful.Keeps P (Session.modelOf t vars))
    (h : P s) {found : List Constraint}
    (hcheck : ((check system cs : SessionM σ _) s).1 = .ok (some found)) :
    found ≠ [] ∧ ∀ k ∈ found, ∃ c i m s', (c, i) ∈ system.clauses.zipIdx ∧ P s' ∧
      (Session.modelOf (c.violation cs) (c.observed (system.decls.map (·.name))) s').1 =
        .ok (some m) ∧
      k = c.counterexample i (system.decls.map (·.name)) m := by
  obtain ⟨hnonempty, hgathered⟩ := gather_of_check hcheck
  exact ⟨hnonempty, (gather_eq_ok hkeeps h hgathered).1⟩

end AnySession

open BoundedSession

variable {sig : Signature} {radius : Nat} {s : BoundedSession} {cs : Candidates}
  {system : ClauseSystem}

/-- A constraint that a model of a clause's violation stands for. -/
inductive Shown (names : List String) (cs : Candidates) (c : Clause) : Constraint → Prop where
  | intro (i : Nat) (w : State) (m : Valuation)
      (hviolated : (c.violation cs).evalBool w.env = some true)
      (hvalues : ∀ x ∈ c.observed names, m.get? x = some (w x)) :
      Shown names cs c (c.counterexample i names m)

/-- A clause that no state of a box violates. -/
def Kept (sig : Signature) (radius : Nat) (cs : Candidates) (c : Clause) : Prop :=
  ∀ w, InBox sig radius w → (c.violation cs).evalBool w.env ≠ some true

theorem fresh_check : Stateful.Keeps (Fresh sig radius) (check system cs) :=
  keeps_check fun t vars _ hs => hs.modelOf t vars

/-- Candidates are accepted only if no state of the box violates a clause. -/
theorem kept_of_check (h : s.Fresh sig radius)
    (hcheck : ((check system cs : SessionM BoundedSession _) s).1 = .ok none) :
    ∀ c ∈ system.clauses, Kept sig radius cs c := by
  obtain ⟨found, hfound, hnone⟩ := Stateful.exists_of_bind hcheck
  have hempty : (if found.isEmpty then none else some found) = none := Except.ok.inj hnone
  split at hempty
  · next hnil =>
    intro c hc
    obtain ⟨i, hi⟩ := List.mem_iff_getElem?.1 hc
    obtain ⟨s', hs', hnone⟩ := (gather_eq_ok (fun t vars s hs => hs.modelOf t vars) h hfound).2
      (List.isEmpty_iff.1 hnil) c i (List.mk_mem_zipIdx_iff_getElem?.2 hi)
    exact fun w => hs'.modelOf_eq_none hnone
  · cases hempty

/-- Whatever is asserted in a session, each constraint that is reported is read off a state that
violates its clause. -/
theorem violated_of_check {found : List Constraint}
    (hcheck : ((check system cs : SessionM BoundedSession _) s).1 = .ok (some found)) :
    ∀ k ∈ found, ∃ (c : Clause) (i : Nat) (w : State) (m : Valuation),
      (c, i) ∈ system.clauses.zipIdx ∧ (c.violation cs).evalBool w.env = some true ∧
      (∀ x ∈ c.observed (system.decls.map (·.name)), m.get? x = some (w x)) ∧
      k = c.counterexample i (system.decls.map (·.name)) m := by
  intro k hk
  have hkeeps : ∀ t vars, Stateful.Keeps (fun _ => True)
      (Session.modelOf t vars : SessionM BoundedSession _) := fun _ _ _ _ => trivial
  obtain ⟨c, i, m, s', hmem, -, hmodel, rfl⟩ := (reported_of_check hkeeps trivial hcheck).2 k hk
  obtain ⟨w, htrue, hvalues⟩ := modelOf_eq_some hmodel
  exact ⟨c, i, w, m, hmem, htrue, hvalues, rfl⟩

theorem shown_of_check {found : List Constraint}
    (hcheck : ((check system cs : SessionM BoundedSession _) s).1 = .ok (some found)) :
    ∀ k ∈ found, ∃ c ∈ system.clauses, Shown (system.decls.map (·.name)) cs c k := by
  intro k hk
  obtain ⟨c, i, w, m, hmem, htrue, hvalues, rfl⟩ := violated_of_check hcheck k hk
  exact ⟨c, List.fst_mem_of_mem_zipIdx hmem, .intro i w m htrue hvalues⟩

end Teacher

end LoopInvariant
