import LoopInvariant.Proofs.LeastLabels
/-!
# Retired constraints make no difference

A constraint is retired once it has its conclusion for good, so checking it again would do nothing.
Hence it does not matter which constraints are retired: adding a constraint gives the same labels
for the same reasons, and fails with the same contradiction. This is shown against knowledge in
which every constraint is revived. Only checking a constraint looks at what is retired, and all
other operations commute with reviving as they stand.
-/

namespace LoopInvariant

/-- A computation whose every step is a step of another, seen through a function. -/
theorem foldlM_map {ε α β γ : Type} {f : β → α → Except ε β} {g : γ → α → Except ε γ} (r : β → γ)
    (hstep : ∀ b a, g (r b) a = (f b a).map r) (xs : List α) (b : β) :
    xs.foldlM g (r b) = (xs.foldlM f b).map r := by
  induction xs generalizing b with
  | nil => rfl
  | cons x xs ih =>
    rw [List.foldlM_cons, List.foldlM_cons, hstep]
    cases f b x with
    | error e => rfl
    | ok b' => exact ih b'

namespace Knowledge

variable {k k' : Knowledge} {c : Constraint} {d : Datapoint} {l : Label} {queue : List Pending}
  {s : Knowledge × List Pending}

def revived (k : Knowledge) : Knowledge := { k with retired := ∅ }

def revivedState (s : Knowledge × List Pending) : Knowledge × List Pending := (s.1.revived, s.2)

/-! ## Operations that do not look at what is retired -/

theorem explain_revived (k : Knowledge) (fuel : Nat) : k.revived.explain fuel = k.explain fuel := by
  induction fuel with
  | zero => rfl
  | succ fuel ih =>
    funext d l chain
    simp only [explain, ih]
    rfl

theorem setLabel_revived (k : Knowledge) (d : Datapoint) (l : Label) (queue : List Pending) :
    k.revived.setLabel d l queue = (k.setLabel d l queue).map revivedState := by
  have hlabel : k.revived.label? d = k.label? d := rfl
  have hfuel : k.revived.explainFuel = k.explainFuel := rfl
  rw [setLabel, setLabel, hlabel, hfuel]
  cases k.label? d with
  | none => rfl
  | some old =>
    simp only [explain_revived]
    split
    · split <;> rfl
    · rfl

theorem spread_revived (d : Datapoint) (polarity universal : Bool) (es : List Datapoint)
    (s : Knowledge × List Pending) :
    spread d polarity universal es (revivedState s) =
      (spread d polarity universal es s).map revivedState := by
  induction es generalizing s with
  | nil => rfl
  | cons e es ih =>
    rw [revivedState, spread, spread, setLabel_revived]
    cases s.1.setLabel e ⟨polarity, universal, .subsumed d⟩ s.2 with
    | error e => rfl
    | ok s => exact ih s

theorem inherit_revived (d : Datapoint) (ls : List (Datapoint × Label))
    (s : Knowledge × List Pending) :
    inherit d ls (revivedState s) = (inherit d ls s).map revivedState := by
  induction ls generalizing s with
  | nil => rfl
  | cons x ls ih =>
    obtain ⟨e, l⟩ := x
    rw [revivedState, inherit, inherit]
    split
    · rw [setLabel_revived]
      cases s.1.setLabel d ⟨l.polarity, l.universal, .subsumed e⟩ s.2 with
      | error e => rfl
      | ok s => exact ih s
    · exact ih s

theorem register_revived (fuel : Nat) (d : Datapoint) (s : Knowledge × List Pending) :
    register fuel d (revivedState s) = (register fuel d s).map revivedState := by
  induction fuel generalizing d s with
  | zero => rfl
  | succ fuel ih =>
    have hpoints : (revivedState s).1.points = s.1.points := rfl
    have hinherit : inherit d ((revivedState s).1.relatives d)
        ({ (revivedState s).1 with points := s.1.points.insert d }, (revivedState s).2) =
          (inherit d (s.1.relatives d) ({ s.1 with points := s.1.points.insert d }, s.2)).map
            revivedState := inherit_revived d _ ({ s.1 with points := s.1.points.insert d }, s.2)
    rw [register_succ, register_succ, hpoints]
    split
    · rfl
    · rw [hinherit]
      cases inherit d (s.1.relatives d) ({ s.1 with points := s.1.points.insert d }, s.2) with
      | error e => rfl
      | ok s' => exact foldlM_map revivedState (fun s m => ih m s) _ s'

theorem registerAll_revived (ds : List Datapoint) (s : Knowledge × List Pending) :
    registerAll ds (revivedState s) = (registerAll ds s).map revivedState := by
  induction ds generalizing s with
  | nil => rfl
  | cons d ds ih =>
    have hfuel : (revivedState s).1.registerFuel d = s.1.registerFuel d := rfl
    rw [registerAll, registerAll, hfuel, register_revived]
    cases register (s.1.registerFuel d) d s with
    | error e => rfl
    | ok s => exact ih s

/-! ## Checking a retired constraint -/

/-- Every retired constraint has its conclusion for good. -/
def AllFinished (k : Knowledge) : Prop :=
  ∀ i c, k.retired.contains i = true → k.constraints[i]? = some c → k.Finished c

theorem Advances.allFinished {s' : Knowledge × List Pending} (h : Advances s s')
    (hs : s.1.AllFinished) : s'.1.AllFinished := by
  intro i c hi hc
  rw [h.retired_eq] at hi
  rw [h.constraints_eq] at hc
  exact h.finished (hs i c hi hc)

theorem setLabel_of_hasLabel (h : k.HasLabel true d l.polarity) :
    k.setLabel d l queue = .ok (k, queue) := by
  obtain ⟨old, hold, hpolarity, huniversal⟩ := h
  simp [setLabel, hold, hpolarity, huniversal rfl]

theorem check_of_finished {i : Nat} (hc : k.constraints[i]? = some c) (h : k.Finished c) :
    k.check i queue = .ok (k, queue) := by
  rw [check, hc]
  simp only
  split
  · rfl
  · have hopened : ∀ x, k.HasLabel true x false → x ∈ c.sources →
        x ∈ (c.sources.filter fun x => !k.isTrue x).eraseDups := by
      intro x hfalse hx
      refine mem_opened.2 ⟨hx, Bool.eq_false_iff.2 fun htrue => ?_⟩
      cases hfalse.unique (isTrue_iff_hasLabel.1 htrue)
    generalize (c.sources.filter fun x => !k.isTrue x).eraseDups = opened at hopened
    rcases h with ⟨t, ht, htrue⟩ | ⟨x, hx, hfalse⟩
    · rw [ht]
      have hlabel := htrue
      obtain ⟨l, hl, hpolarity, -⟩ := hlabel
      split
      · contradiction
      · next heq =>
        cases heq
        exact setLabel_of_hasLabel htrue
      · contradiction
      · next heq =>
        cases heq
        simp [hl, hpolarity]
      · rfl
    · have hx := hopened x hfalse hx
      split
      · cases hx
      · cases hx
      · cases List.mem_singleton.1 hx
        exact setLabel_of_hasLabel hfalse
      · cases List.mem_singleton.1 hx
        split
        · split
          · rfl
          · exact setLabel_of_hasLabel hfalse
        · rfl
      · rfl

theorem check_revived (h : k.AllFinished) (i : Nat) (queue : List Pending) :
    k.revived.check i queue = (k.check i queue).map revivedState := by
  cases hc : k.constraints[i]? with
  | none =>
    have hnone : k.revived.constraints[i]? = none := hc
    rw [check, check, hc, hnone]
    rfl
  | some c =>
    have hsome : k.revived.constraints[i]? = some c := hc
    by_cases hi : k.retired.contains i = true
    · have hfinished : k.revived.Finished c := h i c hi hc
      rw [check_of_finished hsome hfinished, check_of_finished hc (h i c hi hc)]
      rfl
    · have hretired : ¬k.revived.retired.contains i = true := by
        intro hmem
        cases hmem
      have htrue : k.revived.isTrue = k.isTrue := rfl
      have hdecided : k.revived.isDecided = k.isDecided := rfl
      have hlabel : k.revived.label? = k.label? := rfl
      have hfuel : k.revived.explainFuel = k.explainFuel := rfl
      rw [check, check, hc, hsome]
      simp only [if_neg hi, if_neg hretired, htrue, hdecided, hlabel, hfuel, explain_revived,
        setLabel_revived]
      split
      · rfl
      · rfl
      · rfl
      · split
        · split <;> rfl
        · rfl
      · rfl

/-! ## Deduction -/

theorem advances_workOut {p : Pending} (h : k.workOut p queue = .ok s) : Advances (k, queue) s := by
  cases p with
  | check i => exact advances_check h
  | labelled d =>
    rw [workOut] at h
    split at h
    · cases h
      exact .refl _
    · exact (advances_enqueue _).trans (hasLabel_spread h).1

theorem workOut_revived (h : k.AllFinished) (p : Pending) (queue : List Pending) :
    k.revived.workOut p queue = (k.workOut p queue).map revivedState := by
  cases p with
  | check i => exact check_revived h i queue
  | labelled d =>
    have hlabel : k.revived.label? d = k.label? d := rfl
    rw [workOut, workOut, hlabel]
    cases k.label? d with
    | none => rfl
    | some l =>
      simp only
      split
      · exact spread_revived d l.polarity l.universal _ (k, _)
      · exact spread_revived d l.polarity l.universal _ (k, _)

theorem propagate_revived (h : k.AllFinished) (fuel : Nat) (queue : List Pending) :
    propagate fuel k.revived queue = (propagate fuel k queue).map revived := by
  induction fuel generalizing k queue with
  | zero => rfl
  | succ fuel ih =>
    cases queue with
    | nil => rfl
    | cons p queue =>
      rw [propagate, propagate, workOut_revived h]
      cases hwork : k.workOut p queue with
      | error e => rfl
      | ok s => exact ih ((advances_workOut hwork).allFinished h) s.2

theorem AllFinished.registerAll {ds : List Datapoint} {s' : Knowledge × List Pending}
    (h : s.1.AllFinished) (hrun : Knowledge.registerAll ds s = .ok s') : s'.1.AllFinished := by
  refine registerAll_induction (S := fun _ => True) (P := fun x => x.1.AllFinished)
    (fun _ _ _ _ _ _ => trivial) (fun _ _ _ _ => trivial) ?_ (fun _ _ => trivial) h hrun
  intro d x x' _ _ hx hinherit
  have hpoint : AllFinished { x.1 with points := x.1.points.insert d } := hx
  exact (hasLabel_inherit hinherit).1.allFinished hpoint

theorem Reachable.allFinished (h : k.Reachable) : k.AllFinished :=
  fun _ _ hi hc => h.drawn.finished hi hc

/-- A constraint is added as if none were retired. -/
theorem Reachable.insert_revived (h : k.Reachable) (c : Constraint) :
    k.revived.insert c = (k.insert c).map fun r => (r.1, r.2.revived) := by
  have hconstraints : k.revived.constraints = k.constraints := rfl
  have hpush : AllFinished { k with constraints := k.constraints.push c } := by
    intro i c' hi hc'
    have hlt : i < k.constraints.size := h.saturated.tracked.retired_lt i hi
    rw [Array.getElem?_push_lt hlt, ← Array.getElem?_eq_getElem hlt] at hc'
    exact h.allFinished i c' hi hc'
  have hregister : Knowledge.registerAll c.datapoints
      ({ k.revived with constraints := k.constraints.push c }, []) =
        (Knowledge.registerAll c.datapoints
          ({ k with constraints := k.constraints.push c }, [])).map revivedState :=
    registerAll_revived c.datapoints ({ k with constraints := k.constraints.push c }, [])
  rw [Knowledge.insert, Knowledge.insert, hconstraints]
  split
  · rfl
  · rw [hregister]
    cases hrun : Knowledge.registerAll c.datapoints
        ({ k with constraints := k.constraints.push c }, []) with
    | error e => rfl
    | ok s =>
      have hpropagate := propagate_revived (hpush.registerAll hrun)
        (s.1.propagateFuel (s.2 ++ [.check k.size])) (s.2 ++ [.check k.size])
      change (propagate (s.1.propagateFuel (s.2 ++ [.check k.size])) s.1.revived
        (s.2 ++ [.check k.size])).map _ = ((propagate (s.1.propagateFuel (s.2 ++ [.check k.size]))
          s.1 (s.2 ++ [.check k.size])).map _).map _
      rw [hpropagate]
      cases propagate (s.1.propagateFuel (s.2 ++ [.check k.size])) s.1 (s.2 ++ [.check k.size]) with
      | error e => rfl
      | ok last => rfl

/-- Knowledge with the same labels for the same reasons, whatever is retired. -/
structure SameButRetired (k k' : Knowledge) : Prop where
  left : k.Reachable
  right : k'.Reachable
  revived_eq : k.revived = k'.revived

theorem SameButRetired.constraints_eq (h : SameButRetired k k') :
    k.constraints = k'.constraints := by
  show k.revived.constraints = k'.revived.constraints
  rw [h.revived_eq]

theorem SameButRetired.insert (h : SameButRetired k k') (c : Constraint) :
    (∃ e, k.insert c = .error e ∧ k'.insert c = .error e) ∨
      ∃ added n n', k.insert c = .ok (added, n) ∧ k'.insert c = .ok (added, n') ∧
        SameButRetired n n' := by
  have hsame := h.left.insert_revived c
  rw [h.revived_eq, h.right.insert_revived] at hsame
  cases hk : k.insert c with
  | error e =>
    cases hk' : k'.insert c with
    | error e' =>
      rw [hk, hk'] at hsame
      cases hsame
      exact .inl ⟨e, rfl, rfl⟩
    | ok r =>
      rw [hk, hk'] at hsame
      cases hsame
  | ok r =>
    cases hk' : k'.insert c with
    | error e' =>
      rw [hk, hk'] at hsame
      cases hsame
    | ok r' =>
      obtain ⟨added, n⟩ := r
      obtain ⟨added', n'⟩ := r'
      rw [hk, hk'] at hsame
      simp only [Except.map, Except.ok.injEq, Prod.mk.injEq] at hsame
      obtain ⟨rfl, hrevived⟩ := hsame
      exact .inr ⟨added', n, n', rfl, rfl, h.left.insert hk, h.right.insert hk', hrevived.symm⟩

theorem SameButRetired.insertAll (h : SameButRetired k k') (cs : List Constraint) :
    (k.insertAll cs).1 = (k'.insertAll cs).1 ∧
      SameButRetired (k.insertAll cs).2 (k'.insertAll cs).2 := by
  induction cs generalizing k k' with
  | nil => exact ⟨rfl, h⟩
  | cons c cs ih =>
    rw [Knowledge.insertAll, Knowledge.insertAll]
    rcases h.insert c with ⟨e, hk, hk'⟩ | ⟨added, n, n', hk, hk', hnext⟩
    · rw [hk, hk']
      exact ⟨rfl, h⟩
    · obtain ⟨hresult, hlast⟩ := ih hnext
      rw [hk, hk']
      exact ⟨congrArg (Except.map _) hresult, hlast⟩

end Knowledge

end LoopInvariant
