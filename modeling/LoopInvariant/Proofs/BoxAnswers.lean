import LoopInvariant.Proofs.Completion
import LoopInvariant.Proofs.Dialogue
/-!
# What a bounded session answers

A session breaks asserted formulas into conjuncts and keeps them scope by scope, so that what is
asserted can be told from the calls alone. Whatever the calls before it, a check finds values that
make everything asserted true, or no values in the box do.
-/

namespace LoopInvariant

namespace BoundedSession

open Session (Request)

/-! ## Calls -/

/-- The formulas asserted in each scope after a call, the innermost scope first. -/
def scopesAfter (before : List (List Term)) : Request → List (List Term)
  | .push => [] :: before
  | .pop => before.tail
  | .assert t => before.modifyHead (· ++ [t])
  | .declare _ | .checkSat | .model _ | .modelOf _ _ => before

def live (calls : List Request) : List Term := (calls.foldl scopesAfter [[]]).flatten

/-- A session that keeps the conjuncts of the formulas asserted in each scope. -/
structure Holds (sig : Signature) (radius : Nat) (scopes : List (List Term)) (s : BoundedSession) :
    Prop where
  signature_eq : s.signature = sig
  radius_eq : s.radius = radius
  not_canceled : s.canceled = false
  frames : s.scopes ++ [s.base] = scopes.map (·.flatMap Term.conjuncts)
  sorts : ∀ t ∈ scopes.flatten, ∀ x ∈ t.vars, ∃ sort, sig.sortOf? x = some sort

variable {sig : Signature} {radius : Nat} {scopes : List (List Term)} {s s' : BoundedSession}

theorem holds_of_ofRadius? {radius : Int64} (h : ofRadius? sig radius = some s) :
    s.Holds sig radius.toInt.natAbs [[]] := by
  obtain ⟨_, -, rfl⟩ := Option.map_eq_some_iff.1 h
  exact ⟨rfl, rfl, rfl, rfl, by simp⟩

namespace Holds

theorem push (h : s.Holds sig radius scopes) :
    s.opened.Holds sig radius ([] :: scopes) :=
  ⟨h.signature_eq, h.radius_eq, h.not_canceled, congrArg ([] :: ·) h.frames, h.sorts⟩

theorem pop (h : s.Holds sig radius scopes)
    (hpop : (Session.pop : SessionM BoundedSession Unit) s = (.ok (), s')) :
    s'.Holds sig radius scopes.tail := by
  simp only [Session.pop] at hpop
  split at hpop
  · cases hpop
  · next top rest hscopes =>
    cases hpop
    have hframes := h.frames
    rw [hscopes] at hframes
    refine ⟨h.signature_eq, h.radius_eq, h.not_canceled, ?_, fun t ht => h.sorts t ?_⟩
    · rw [List.map_tail, ← hframes]
      rfl
    · obtain ⟨scope, hscope, ht⟩ := List.mem_flatten.1 ht
      exact List.mem_flatten.2 ⟨scope, List.mem_of_mem_tail hscope, ht⟩

theorem add (h : s.Holds sig radius scopes) {t : Term}
    (hsorts : ∀ x ∈ t.vars, ∃ sort, sig.sortOf? x = some sort) :
    (s.add t.conjuncts).Holds sig radius (scopes.modifyHead (· ++ [t])) := by
  obtain ⟨top, rest, rfl⟩ : ∃ top rest, scopes = top :: rest := by
    cases scopes with
    | nil => simpa using congrArg List.length h.frames
    | cons top rest => exact ⟨top, rest, rfl⟩
  have hframes := h.frames
  have hlive : ∀ u ∈ ((top ++ [t]) :: rest).flatten, ∀ x ∈ u.vars,
      ∃ sort, sig.sortOf? x = some sort := by
    intro u hu
    simp only [List.flatten_cons, List.append_assoc, List.mem_append, List.mem_singleton] at hu
    rcases hu with hu | rfl | hu
    · exact h.sorts u (List.mem_append_left _ hu)
    · exact hsorts
    · exact h.sorts u (List.mem_append_right _ hu)
  rw [BoundedSession.add]
  split
  · next hscopes =>
    rw [hscopes] at hframes
    simp only [List.nil_append, List.map_cons, List.cons.injEq] at hframes
    refine ⟨h.signature_eq, h.radius_eq, h.not_canceled, ?_, hlive⟩
    simp [hscopes, hframes.1, ← hframes.2]
  · next frame frames hscopes =>
    rw [hscopes] at hframes
    simp only [List.cons_append, List.map_cons, List.cons.injEq] at hframes
    refine ⟨h.signature_eq, h.radius_eq, h.not_canceled, ?_, hlive⟩
    simp [hframes.1, hframes.2]

theorem checkSat (h : s.Holds sig radius scopes) :
    ((Session.checkSat : SessionM BoundedSession _) s).2.Holds sig radius scopes := by
  simp only [Session.checkSat]
  split
  · exact ⟨h.signature_eq, h.radius_eq, h.not_canceled, h.frames, h.sorts⟩
  · exact h
  · exact h

theorem model (h : s.Holds sig radius scopes) (xs : List String) :
    ((Session.model xs : SessionM BoundedSession _) s).2.Holds sig radius scopes := by
  simp only [Session.model]
  split
  · exact h
  · exact h

theorem run (h : s.Holds sig radius scopes) {call : Request}
    (hrun : call.perform s = (.ok (), s')) : s'.Holds sig radius (scopesAfter scopes call) := by
  obtain ⟨r, hrun⟩ := Request.exists_reply_of_perform hrun
  cases call with
  | push =>
    cases hrun
    exact h.push
  | pop => exact h.pop hrun
  | declare xs =>
    cases congrArg Prod.snd hrun
    exact h
  | assert t =>
    rw [Request.run] at hrun
    cases hsorts : s.needSorts t.vars with
    | error e =>
      rw [assert_of_error hsorts] at hrun
      cases hrun
    | ok =>
      rw [assert_of_ok hsorts] at hrun
      cases hrun
      exact h.add (h.signature_eq ▸ needSorts_eq_ok.1 hsorts)
  | checkSat =>
    cases congrArg Prod.snd hrun
    exact h.checkSat
  | model xs =>
    cases congrArg Prod.snd hrun
    exact h.model xs
  | modelOf t xs =>
    rw [Request.run, modelOf_run] at hrun
    cases congrArg Prod.snd hrun
    exact ⟨h.signature_eq, h.radius_eq, h.not_canceled, h.frames, h.sorts⟩

/-- Whatever calls were made, the session holds what they asserted. -/
theorem run_all (h : s.Holds sig radius scopes) {calls : List Request}
    (hcalls : calls.forM Request.perform s = (.ok (), s')) :
    s'.Holds sig radius (calls.foldl scopesAfter scopes) := by
  induction calls generalizing s scopes with
  | nil =>
    cases hcalls
    exact h
  | cons call calls ih =>
    obtain ⟨_, u, hrun, hrest⟩ := Stateful.exists_of_bind_eq hcalls
    exact ih (h.run hrun) hrest

/-! ## Checks -/

theorem mem_conjuncts (h : s.Holds sig radius scopes) {c : Term} :
    c ∈ s.conjuncts ↔ ∃ t ∈ scopes.flatten, c ∈ t.conjuncts := by
  have hmem : c ∈ s.conjuncts ↔ c ∈ (s.scopes ++ [s.base]).flatten := by
    simp [conjuncts, or_comm]
  rw [hmem, h.frames, ← List.flatMap_def, ← List.flatMap_assoc]
  simp

theorem allTrue_conjuncts (h : s.Holds sig radius scopes) {env : Env} :
    AllTrue env s.conjuncts ↔ AllTrue env scopes.flatten := by
  constructor
  · intro htrue t ht
    rw [Term.evalBool_eq_true_iff_conjuncts]
    exact fun c hc => htrue c (h.mem_conjuncts.2 ⟨t, ht, hc⟩)
  · intro htrue c hc
    obtain ⟨t, ht, hc⟩ := h.mem_conjuncts.1 hc
    exact Term.evalBool_eq_true_iff_conjuncts.1 (htrue t ht) c hc

theorem mem_vars_of_conjuncts (h : s.Holds sig radius scopes) {c : Term} (hc : c ∈ s.conjuncts)
    {x : String} (hx : x ∈ c.vars) : ∃ t ∈ scopes.flatten, x ∈ t.vars := by
  obtain ⟨t, ht, hc⟩ := h.mem_conjuncts.1 hc
  exact ⟨t, ht, Term.mem_vars_iff.2 (Term.occurrences_of_conjuncts hc (Term.mem_vars_iff.1 hx))⟩

theorem sorts_conjuncts (h : s.Holds sig radius scopes) {c : Term} (hc : c ∈ s.conjuncts)
    {x : String} (hx : x ∈ c.vars) : ∃ sort, s.signature.sortOf? x = some sort := by
  obtain ⟨t, ht, hx⟩ := h.mem_vars_of_conjuncts hc hx
  rw [h.signature_eq]
  exact h.sorts t ht x hx

theorem sorts_searchOrder (h : s.Holds sig radius scopes) {x : String}
    (hx : x ∈ searchOrder s.conjuncts) : ∃ sort, s.signature.sortOf? x = some sort := by
  obtain ⟨c, hc, hx⟩ := mem_searchOrder.1 hx
  exact h.sorts_conjuncts hc hx

theorem exists_check (h : s.Holds sig radius scopes) : ∃ r, s.check = .ok r :=
  exists_search h.not_canceled (fun _ => h.sorts_searchOrder) _

/-- The values of a model make everything asserted true. -/
theorem model_allTrue (h : s.Holds sig radius scopes) {m : Valuation}
    (hcheck : s.check = .ok (some m)) {vars : List String}
    (hsorts : ∀ x ∈ vars, ∃ sort, sig.sortOf? x = some sort)
    (hvars : ∀ t ∈ scopes.flatten, ∀ x ∈ t.vars, x ∈ vars) :
    ∃ v, s.complete m vars (SortedMap.ofList []) = .ok v ∧ AllTrue v.get? scopes.flatten := by
  obtain ⟨v, hv⟩ := exists_complete (s := s) m (h.signature_eq ▸ hsorts) (SortedMap.ofList [])
  refine ⟨v, hv, h.allTrue_conjuncts.1 fun c hc => ?_⟩
  refine Term.evalBool_mono (fun x a hx => ?_) (search_eq_some hcheck c hc)
  rcases get?_of_search hcheck hx with hmem | hnone
  · obtain ⟨c, hc, hxc⟩ := mem_searchOrder.1 hmem
    obtain ⟨t, ht, hxt⟩ := h.mem_vars_of_conjuncts hc hxc
    rw [complete_eq_ok hv (.inl (hvars t ht x hxt)), fill, hx, Option.getD_some]
  · cases hnone

end Holds

/-- A valuation that gives no variable a value of another sort or beyond the radius. -/
def Within (sig : Signature) (radius : Nat) (env : Env) : Prop :=
  ∀ x sort a, sig.sortOf? x = some sort → env x = some a →
    a.sort = sort ∧ ∀ i, a = .int i → -(radius : Int) ≤ i.toInt ∧ i.toInt ≤ radius

/-- What a valuation leaves open can be filled in within the box. -/
theorem Within.exists_state {env : Env} (h : Within sig radius env) :
    ∃ w : State, w.env.Extends env ∧ InBox sig radius w := by
  refine ⟨fun x => (env x).getD ((sig.sortOf? x).elim default Value.ofSort), ?_, ?_⟩
  · intro x a hx
    simp [State.env, hx]
  · intro x sort hsort
    simp only [hsort, Option.elim_some]
    cases hx : env x with
    | some a =>
      obtain ⟨hasort, hint⟩ := h x sort a hsort hx
      apply mem_domain hasort
      intro i hi
      have := hint i hi
      omega
    | none =>
      cases sort with
      | bool => exact List.mem_cons_self
      | int => exact List.mem_cons_self

theorem Holds.not_allTrue (h : s.Holds sig radius scopes) (hcheck : s.check = .ok none) {env : Env}
    (hwithin : Within sig radius env) : ¬AllTrue env scopes.flatten := by
  intro htrue
  obtain ⟨w, hextends, hbox⟩ := hwithin.exists_state
  have hw : AllTrue w.env s.conjuncts :=
    h.allTrue_conjuncts.2 fun t ht => Term.evalBool_mono hextends (htrue t ht)
  rw [← h.signature_eq, ← h.radius_eq] at hbox
  apply search_ne_none hbox hw (v := SortedMap.ofList []) _ _ hcheck
  · intro x a hx
    cases hx
  · exact fun c hc x hx => .inl (mem_searchOrder.2 ⟨c, hc, hx⟩)

/-- A bounded session answers exactly for its box. After any calls that succeed, a check finds a
model or finds none. If it does, the values of any variables with sorts, as long as those of the
asserted formulas are among them, make every asserted formula true. If it does not, no valuation
within the box makes all of them true. -/
theorem checkSat_exact_for_box {sig : Signature} {radius : Int64} {fresh s : BoundedSession}
    {calls : List Request} (hfresh : ofRadius? sig radius = some fresh)
    (hcalls : calls.forM Request.perform fresh = (.ok (), s)) :
    (∃ s', (Session.checkSat : SessionM BoundedSession _) s = (.ok .sat, s') ∧
      ∀ vars : List String, (∀ x ∈ vars, ∃ sort, sig.sortOf? x = some sort) →
        (∀ t ∈ live calls, ∀ x ∈ t.vars, x ∈ vars) →
        ∃ v, ((Session.model vars : SessionM BoundedSession _) s').1 = .ok v ∧
          ∀ t ∈ live calls, t.evalBool v.get? = some true) ∨
    ((Session.checkSat : SessionM BoundedSession _) s).1 = .ok .unsat ∧
      ∀ env : Env, Within sig radius.toInt.natAbs env →
        ¬∀ t ∈ live calls, t.evalBool env = some true := by
  have hholds := (holds_of_ofRadius? hfresh).run_all hcalls
  obtain ⟨r, hcheck⟩ := hholds.exists_check
  cases r with
  | some m =>
    refine .inl ⟨_, checkSat_of_some hcheck, fun vars hsorts hvars => ?_⟩
    obtain ⟨v, hv, htrue⟩ := hholds.model_allTrue hcheck hsorts hvars
    refine ⟨v, ?_, htrue⟩
    rw [model_of_some rfl, ← hv]
    exact complete_congr (by rfl) m vars _
  | none =>
    refine .inr ⟨by rw [checkSat_of_none hcheck], fun env hwithin => ?_⟩
    exact hholds.not_allTrue hcheck hwithin

def smallBox : BoundedSession := { signature := SortedMap.ofList [("x", .int)], radius := 2 }

def boundCalls : List Request :=
  [.assert (.rel .lt (.int 1) (.var "x@0")), .push, .assert (.rel .lt (.var "x@0") (.int 2)),
    .checkSat, .pop]

/-- The upper bound is not asserted any more, and there is a model at the edge of the box. -/
theorem boundCalls_answered :
    ofRadius? smallBox.signature (-2) = some smallBox ∧
    live boundCalls = [.rel .lt (.int 1) (.var "x@0")] ∧
    ∃ s s' v, boundCalls.forM Request.perform smallBox = (.ok (), s) ∧
      (Session.checkSat : SessionM BoundedSession _) s = (.ok .sat, s') ∧
      ((Session.model ["x@0"] : SessionM BoundedSession _) s').1 = .ok v ∧
      ∀ t ∈ live boundCalls, t.evalBool v.get? = some true := by
  have hfresh : ofRadius? smallBox.signature (-2) = some smallBox :=
    ofRadius?_eq_some smallBox.signature (by decide)
  have hlive : live boundCalls = [.rel .lt (.int 1) (.var "x@0")] := by decide
  have hsucceed : (boundCalls.forM Request.perform smallBox).1.toOption = some () := by
    decide +kernel
  have hcalls : boundCalls.forM Request.perform smallBox = (.ok (), _) :=
    Prod.ext (toOption_eq_some_iff.1 hsucceed) rfl
  have hanswer : ((Session.checkSat : SessionM BoundedSession _)
      (boundCalls.forM Request.perform smallBox).2).1.toOption = some .sat := by decide +kernel
  refine ⟨hfresh, hlive, ?_⟩
  rcases checkSat_exact_for_box hfresh hcalls with ⟨s', hsat, hmodel⟩ | ⟨hunsat, -⟩
  · have hsort : smallBox.signature.sortOf? "x@0" = some .int := by decide +kernel
    obtain ⟨v, hv, htrue⟩ := hmodel ["x@0"] (List.forall_mem_singleton.2 ⟨.int, hsort⟩)
      (by rw [hlive]; decide)
    exact ⟨_, s', v, hcalls, hsat, hv, htrue⟩
  · rw [hunsat] at hanswer
    cases hanswer

end BoundedSession

end LoopInvariant
