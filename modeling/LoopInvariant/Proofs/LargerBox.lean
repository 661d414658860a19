import LoopInvariant.Proofs.BoxAnswers
/-!
# Larger boxes

Two bounded sessions that were asked the same and differ in their radius search two different trees:
the larger box brings more branches, and they come in between the others. The branch on which the
smaller box has its model is still there, with the same values, because an equation that fixes a
value does not ask for the radius. So what can be satisfied in a box can be satisfied in every
larger one.

There is one radius without a box: the smallest integer has no absolute value, and no session starts
with it.
-/

namespace LoopInvariant

namespace BoundedSession

open Session (Request)

theorem domain_subset {radius radius' : Nat} (h : radius ≤ radius') (sort : VarSort) :
    domain radius sort ⊆ domain radius' sort := by
  cases sort with
  | bool => exact List.Subset.refl _
  | int =>
    apply List.cons_subset_cons
    intro v hv
    obtain ⟨i, hi, hv⟩ := List.mem_flatMap.1 hv
    rw [List.mem_range] at hi
    exact List.mem_flatMap.2 ⟨i, List.mem_range.2 (by omega), hv⟩

/-- A model can be completed only by variables that it has or that have a sort. -/
theorem mem_or_sort_of_complete {s : BoundedSession} {m v r : Valuation} {xs : List String}
    (h : s.complete m xs v = .ok r) :
    ∀ x ∈ xs, (∃ a, m.get? x = some a) ∨ ∃ sort, s.signature.sortOf? x = some sort := by
  induction xs generalizing v with
  | nil => simp
  | cons y xs ih =>
    rw [complete] at h
    split at h
    · next a ha => exact List.forall_mem_cons.2 ⟨.inl ⟨a, ha⟩, ih h⟩
    · rw [Signature.sortOf] at h
      cases hsort : s.signature.sortOf? y with
      | none =>
        rw [hsort] at h
        cases h
      | some sort =>
        rw [hsort] at h
        exact List.forall_mem_cons.2 ⟨.inr ⟨sort, hsort⟩, ih h⟩

/-- A session that was asked what another one was asked, over a box that is no smaller. -/
structure Widens (s t : BoundedSession) : Prop where
  signature_eq : t.signature = s.signature
  radius_le : s.radius ≤ t.radius
  base_eq : t.base = s.base
  scopes_eq : t.scopes = s.scopes
  canceled_eq : t.canceled = s.canceled
  model : ∀ m, s.model = some m → (∃ m', t.model = some m') ∧
    ∀ x a, m.get? x = some a → ∃ sort, s.signature.sortOf? x = some sort

variable {s s' t : BoundedSession} {cs : List Term}

namespace Widens

theorem conjuncts_eq (h : s.Widens t) : t.conjuncts = s.conjuncts := by
  rw [conjuncts, conjuncts, h.base_eq, h.scopes_eq]

/-- An equation fixes the same value in both boxes; otherwise the larger one offers more. -/
theorem choices_subset (h : s.Widens t) {x : String} {v : Valuation} {values : List Value}
    (hs : s.choices x cs v = .ok values) :
    ∃ values', t.choices x cs v = .ok values' ∧ values ⊆ values' := by
  rw [choices] at hs
  rw [choices]
  split at hs
  · next a hdefined =>
    cases hs
    exact ⟨[a], rfl, List.Subset.refl _⟩
  · obtain ⟨sort, hsort, rfl⟩ := map_eq_ok.1 hs
    rw [h.signature_eq, hsort]
    exact ⟨_, rfl, domain_subset h.radius_le sort⟩

/-- The branch with the model stays open in the larger box, and the search goes on until it finds
one. -/
theorem search (h : s.Widens t) {xs : List String}
    (hsorts : ∀ x ∈ xs, ∃ sort, s.signature.sortOf? x = some sort) {v m : Valuation}
    (hs : s.search cs xs v = .ok (some m)) : ∃ m', t.search cs xs v = .ok (some m') := by
  induction xs generalizing v with
  | nil => exact ⟨m, hs⟩
  | cons x xs ih =>
    rw [List.forall_mem_cons] at hsorts
    rw [BoundedSession.search] at hs
    split at hs
    · cases hs
    · next hopen =>
      split at hs
      · cases hs
      · next hcanceled =>
        split at hs
        · cases hs
        · next values hchoices =>
          obtain ⟨a, ha, hfound⟩ := firstFound_eq_some hs
          obtain ⟨values', hchoices', hsubset⟩ := h.choices_subset hchoices
          obtain ⟨m', hfound'⟩ := ih hsorts.2 hfound
          have hcanceled' : t.canceled = false := by simpa [h.canceled_eq] using hcanceled
          have hsorts' := h.signature_eq ▸ hsorts.2
          obtain ⟨r, hr⟩ := exists_firstFound
            (fun b => exists_search hcanceled' hsorts' (v.insert x b)) values'
          rw [BoundedSession.search, if_neg hopen, hcanceled', hchoices']
          cases r with
          | some m'' => exact ⟨m'', hr⟩
          | none =>
            rw [firstFound_eq_none hr a (hsubset ha)] at hfound'
            cases hfound'

/-! ## Calls -/

variable {sig : Signature} {radius : Nat} {scopes : List (List Term)}

theorem holds (h : s.Widens t) (hs : s.Holds sig radius scopes) : t.Holds sig t.radius scopes where
  signature_eq := h.signature_eq.trans hs.signature_eq
  radius_eq := rfl
  not_canceled := h.canceled_eq.trans hs.not_canceled
  frames := by rw [h.scopes_eq, h.base_eq, hs.frames]
  sorts := hs.sorts

theorem needSorts (h : s.Widens t) {xs : List String} (hs : s.needSorts xs = .ok ()) :
    t.needSorts xs = .ok () := by
  rw [needSorts_eq_ok] at hs ⊢
  exact h.signature_eq ▸ hs

theorem opened (h : s.Widens t) : s.opened.Widens t.opened :=
  ⟨h.signature_eq, h.radius_le, h.base_eq, congrArg ([] :: ·) h.scopes_eq, h.canceled_eq, by
    simp [BoundedSession.opened]⟩

theorem add (h : s.Widens t) (cs : List Term) : (s.add cs).Widens (t.add cs) := by
  rw [BoundedSession.add, BoundedSession.add, h.scopes_eq]
  split
  · exact ⟨h.signature_eq, h.radius_le, congrArg (· ++ cs) h.base_eq, rfl, h.canceled_eq, by simp⟩
  · exact ⟨h.signature_eq, h.radius_le, h.base_eq, rfl, h.canceled_eq, by simp⟩

/-- What a check finds in a box, a check finds in a larger one. Where the smaller box has nothing,
the larger one may. -/
theorem checkSat (h : s.Widens t) (hs : s.Holds sig radius scopes) :
    ∃ answer t', (Session.checkSat : SessionM BoundedSession _) t = (.ok answer, t') ∧
      ((Session.checkSat : SessionM BoundedSession _) s).2.Widens t' ∧
      (((Session.checkSat : SessionM BoundedSession _) s).1 = .ok .sat → answer = .sat) := by
  obtain ⟨r, hcheck⟩ := hs.exists_check
  obtain ⟨r', hcheck'⟩ := (h.holds hs).exists_check
  cases r with
  | some m =>
    obtain ⟨m', hm'⟩ : ∃ m', t.check = .ok (some m') := by
      rw [check, h.conjuncts_eq]
      exact h.search (fun x => hs.sorts_searchOrder) hcheck
    have hsorts : ∀ x a, m.get? x = some a → ∃ sort, s.signature.sortOf? x = some sort := by
      intro x a hx
      rcases get?_of_search hcheck hx with hmem | hnone
      · exact hs.sorts_searchOrder hmem
      · cases hnone
    refine ⟨.sat, _, checkSat_of_some hm', ?_, fun _ => rfl⟩
    rw [checkSat_of_some hcheck]
    exact ⟨h.signature_eq, h.radius_le, h.base_eq, h.scopes_eq, h.canceled_eq,
      fun _ hm => ⟨⟨m', rfl⟩, Option.some.inj hm ▸ hsorts⟩⟩
  | none =>
    rw [checkSat_of_none hcheck]
    cases r' with
    | none => exact ⟨.unsat, t, checkSat_of_none hcheck', h, fun hsat => by cases hsat⟩
    | some m' =>
      exact ⟨.sat, _, checkSat_of_some hcheck', ⟨h.signature_eq, h.radius_le, h.base_eq,
        h.scopes_eq, h.canceled_eq, fun m hm => ⟨⟨m', rfl⟩, (h.model m hm).2⟩⟩, fun _ => rfl⟩

theorem model_eq_ok (h : s.Widens t) {xs : List String} {v : Valuation}
    (hs : (Session.model xs : SessionM BoundedSession _) s = (.ok v, s')) :
    s' = s ∧ ∃ v', (Session.model xs : SessionM BoundedSession _) t = (.ok v', t) := by
  cases hm : s.model with
  | none =>
    simp only [Session.model, hm] at hs
    cases hs
  | some m =>
    rw [model_of_some hm] at hs
    obtain ⟨⟨m', hm'⟩, hsorts⟩ := h.model m hm
    have hxs : ∀ x ∈ xs, ∃ sort, t.signature.sortOf? x = some sort := by
      intro x hx
      rw [h.signature_eq]
      rcases mem_or_sort_of_complete (congrArg Prod.fst hs) x hx with ⟨a, ha⟩ | hsort
      · exact hsorts x a ha
      · exact hsort
    obtain ⟨v', hv'⟩ := exists_complete m' hxs (SortedMap.ofList [])
    exact ⟨(congrArg Prod.snd hs).symm, v', by rw [model_of_some hm', hv']⟩

/-- A question that is answered with a box is answered with a larger one, if not by the same. -/
theorem modelOf (h : s.Widens t) (hs : s.Holds sig radius scopes) {u : Term} {xs : List String}
    {r : Option Valuation} (hrun : (Session.modelOf u xs s).1 = .ok r) :
    ∃ r', (Session.modelOf u xs t).1 = .ok r' := by
  rw [modelOf_run] at hrun
  obtain ⟨⟨⟩, hxs, hrest⟩ := bind_eq_ok.1 hrun
  obtain ⟨⟨⟩, hu, -⟩ := bind_eq_ok.1 hrest
  have ht := h.holds hs
  have hxs' := needSorts_eq_ok.1 (h.opened.needSorts hxs)
  have hu' := needSorts_eq_ok.1 (h.opened.needSorts hu)
  exact exists_modelOf ht.not_canceled (fun c hc x hx => ht.sorts_conjuncts hc hx) hu' hxs'

theorem run (h : s.Widens t) (hs : s.Holds sig radius scopes) {call : Request}
    (hrun : call.perform s = (.ok (), s')) :
    ∃ t', call.perform t = (.ok (), t') ∧ s'.Widens t' := by
  suffices hreply : ∃ r t', call.run t = (.ok r, t') ∧ s'.Widens t' by
    obtain ⟨r, t', hrun', hwidens⟩ := hreply
    exact ⟨t', Request.perform_of_reply hrun', hwidens⟩
  obtain ⟨r, hrun⟩ := Request.exists_reply_of_perform hrun
  cases call with
  | push =>
    cases hrun
    exact ⟨(), _, rfl, h.opened⟩
  | pop =>
    simp only [Request.run, Session.pop] at hrun ⊢
    rw [h.scopes_eq]
    split at hrun
    · cases hrun
    · cases hrun
      exact ⟨(), _, rfl, h.signature_eq, h.radius_le, h.base_eq, rfl, h.canceled_eq, by simp⟩
  | declare xs =>
    have hsorts := h.needSorts (congrArg Prod.fst hrun)
    cases congrArg Prod.snd hrun
    exact ⟨(), t, Prod.ext hsorts rfl, h⟩
  | assert u =>
    rw [Request.run] at hrun
    cases hsorts : s.needSorts u.vars with
    | error e =>
      rw [assert_of_error hsorts] at hrun
      cases hrun
    | ok =>
      rw [assert_of_ok hsorts] at hrun
      cases hrun
      exact ⟨(), _, assert_of_ok (h.needSorts hsorts), h.add u.conjuncts⟩
  | checkSat =>
    obtain ⟨answer, t', hcheck, hwidens, -⟩ := h.checkSat hs
    cases congrArg Prod.snd hrun
    exact ⟨answer, t', hcheck, hwidens⟩
  | model xs =>
    obtain ⟨rfl, v, hv⟩ := h.model_eq_ok hrun
    exact ⟨v, t, hv, h⟩
  | modelOf u xs =>
    obtain ⟨r', hr'⟩ := h.modelOf hs (congrArg Prod.fst hrun)
    refine ⟨r', _, Prod.ext hr' rfl, ?_⟩
    rw [Request.run, modelOf_run] at hrun ⊢
    cases congrArg Prod.snd hrun
    exact ⟨h.signature_eq, h.radius_le, h.base_eq, h.scopes_eq, h.canceled_eq, by simp⟩

theorem run_all (h : s.Widens t) (hs : s.Holds sig radius scopes) {calls : List Request}
    (hcalls : calls.forM Request.perform s = (.ok (), s')) :
    ∃ t', calls.forM Request.perform t = (.ok (), t') ∧ s'.Widens t' := by
  induction calls generalizing s t scopes with
  | nil =>
    cases hcalls
    exact ⟨t, rfl, h⟩
  | cons call calls ih =>
    obtain ⟨_, u, hrun, hrest⟩ := Stateful.exists_of_bind_eq hcalls
    obtain ⟨u', hrun', hwidens⟩ := h.run hs hrun
    obtain ⟨t', hrest', hwidens'⟩ := ih hwidens (hs.run hrun) hrest
    exact ⟨t', (Stateful.bind_of_ok hrun').trans hrest', hwidens'⟩

end Widens

theorem widens_of_ofRadius? {sig : Signature} {radius radius' : Int64}
    (hs : ofRadius? sig radius = some s) (ht : ofRadius? sig radius' = some t)
    (hle : radius.toInt.natAbs ≤ radius'.toInt.natAbs) : s.Widens t := by
  obtain ⟨_, -, rfl⟩ := Option.map_eq_some_iff.1 hs
  obtain ⟨_, -, rfl⟩ := Option.map_eq_some_iff.1 ht
  exact ⟨rfl, hle, rfl, rfl, rfl, by simp⟩

/-- Enlarging the box loses no model, except with the one radius that no session starts with. If
calls succeed with a radius and a check finds a model then, and another radius is no smaller in
absolute value, a session starts with it, succeeds in the same calls and finds a model as well, if
and only if it is not the smallest integer. -/
theorem sat_in_larger_box {sig : Signature} {radius radius' : Int64} {fresh s : BoundedSession}
    {calls : List Request} (hle : radius.toInt.natAbs ≤ radius'.toInt.natAbs)
    (hfresh : ofRadius? sig radius = some fresh)
    (hcalls : calls.forM Request.perform fresh = (.ok (), s))
    (hsat : ((Session.checkSat : SessionM BoundedSession _) s).1 = .ok .sat) :
    (∃ fresh' s', ofRadius? sig radius' = some fresh' ∧
      calls.forM Request.perform fresh' = (.ok (), s') ∧
      ((Session.checkSat : SessionM BoundedSession _) s').1 = .ok .sat) ↔
    radius' ≠ Int64.minValue := by
  constructor
  · rintro ⟨fresh', _, hfresh', -⟩ rfl
    rw [ofRadius?_minValue] at hfresh'
    cases hfresh'
  · intro hradius
    have hfresh' := ofRadius?_eq_some sig hradius
    have hholds := holds_of_ofRadius? hfresh
    obtain ⟨s', hcalls', hwidens⟩ := (widens_of_ofRadius? hfresh hfresh' hle).run_all hholds hcalls
    obtain ⟨answer, _, hcheck, -, hanswer⟩ := hwidens.checkSat (hholds.run_all hcalls)
    refine ⟨_, s', hfresh', hcalls', ?_⟩
    rw [hcheck, hanswer hsat]

/-- Bounds on a variable in a scope that is closed again, then an equation that gives it a value
beyond both boxes. -/
def farValueCalls : List Request :=
  [.push, .assert (.rel .lt (.var "x@0") (.int 0)), .checkSat, .model ["x@0"], .pop,
    .assert (.bin .equals (.var "x@0") (.int 5))]

/-- The value is found with the radius 1 and with the radius -2, though it lies in neither box. -/
theorem farValueCalls_found :
    ofRadius? smallBox.signature 1 = some { smallBox with radius := 1 } ∧
    ofRadius? smallBox.signature (-2) = some smallBox ∧
    ∃ s s', farValueCalls.forM Request.perform { smallBox with radius := 1 } = (.ok (), s) ∧
      ((Session.checkSat : SessionM BoundedSession _) s).1 = .ok .sat ∧
      farValueCalls.forM Request.perform smallBox = (.ok (), s') ∧
      ((Session.checkSat : SessionM BoundedSession _) s').1 = .ok .sat := by
  have hfresh : ofRadius? smallBox.signature 1 = some { smallBox with radius := 1 } :=
    ofRadius?_eq_some smallBox.signature (by decide)
  have hfresh' : ofRadius? smallBox.signature (-2) = some smallBox :=
    ofRadius?_eq_some smallBox.signature (by decide)
  have hsucceed : (farValueCalls.forM Request.perform
      { smallBox with radius := 1 }).1.toOption = some () := by
    decide +kernel
  have hcalls : farValueCalls.forM Request.perform { smallBox with radius := 1 } = (.ok (), _) :=
    Prod.ext (toOption_eq_some_iff.1 hsucceed) rfl
  have hsat : ((Session.checkSat : SessionM BoundedSession _) (farValueCalls.forM Request.perform
      { smallBox with radius := 1 }).2).1.toOption = some .sat := by
    decide +kernel
  have hlarger : (1 : Int64).toInt.natAbs ≤ (-2 : Int64).toInt.natAbs := by decide
  obtain ⟨fresh', s', hfresh'', hcalls', hsat'⟩ :=
    (sat_in_larger_box hlarger hfresh hcalls (toOption_eq_some_iff.1 hsat)).2 (by decide)
  cases hfresh'.symm.trans hfresh''
  exact ⟨hfresh, hfresh', _, s', hcalls, toOption_eq_some_iff.1 hsat, hcalls', hsat'⟩

/-- A positive value is found with the radius 1. The smallest integer is larger in absolute value,
but there is no session that could find anything. -/
theorem smallest_radius_finds_nothing :
    (1 : Int64).toInt.natAbs ≤ Int64.minValue.toInt.natAbs ∧
    ofRadius? smallBox.signature 1 = some { smallBox with radius := 1 } ∧
    (∃ s, [Request.assert (.rel .lt (.int 0) (.var "x@0"))].forM Request.perform
        { smallBox with radius := 1 } = (.ok (), s) ∧
      ((Session.checkSat : SessionM BoundedSession _) s).1 = .ok .sat) ∧
    ofRadius? smallBox.signature Int64.minValue = none := by
  refine ⟨by decide, ofRadius?_eq_some smallBox.signature (by decide), ⟨_, rfl, ?_⟩,
    ofRadius?_minValue _⟩
  exact toOption_eq_some_iff.1 (by decide +kernel)

end BoundedSession

end LoopInvariant
