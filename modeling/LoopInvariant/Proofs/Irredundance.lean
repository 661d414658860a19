import LoopInvariant.Proofs.Refutation
import Mathlib.Data.List.Induction
/-!
# Contradictions without waste

Where all datapoints at a site fix the same variables, none lies inside another, so every label is
forced by a constraint. An explanation then derives each of its datapoints by one constraint, and
derives only what another constraint needs. If one constraint is left out, what is lost with it
includes a source of the last constraint, so the others have a model.
-/

namespace LoopInvariant

/-! ## Derivations that need all their constraints -/

/-- No datapoint is derived twice, and each that is derived is needed. -/
structure Economical (w : List Constraint) : Prop where
  distinct : ∀ c ∈ w, ∀ c' ∈ w, ∀ t, c.target = some t → c'.target = some t → c = c'
  used : ∀ c ∈ w, ∀ t, c.target = some t → ∃ c' ∈ w, t ∈ c'.sources

/-- A source lies inside a target only if it is the target. -/
def Unnested (w : List Constraint) : Prop :=
  ∀ c ∈ w, ∀ s ∈ c.sources, ∀ c' ∈ w, ∀ t, c'.target = some t → s.subset t = true → s = t

/-- What is lost if a constraint is left out. -/
inductive Lost (w : List Constraint) (c : Constraint) : Datapoint → Prop where
  | target {t : Datapoint} (ht : c.target = some t) : Lost w c t
  | step {c' : Constraint} {s t : Datapoint} (hc' : c' ∈ w) (hs : s ∈ c'.sources)
      (hlost : Lost w c s) (ht : c'.target = some t) : Lost w c t

namespace Derivation

variable {cs : Constraint → Prop} {w : List Constraint} {c c' : Constraint} {t : Datapoint}

theorem eq_of_target_none (h : Derivation cs w) (hc : c ∈ w) (hc' : c' ∈ w)
    (hnone : c.target = none) (hnone' : c'.target = none) : c = c' := by
  obtain ⟨before, last, rfl, -, hbefore⟩ := h.ends
  have hlast : ∀ x ∈ before ++ [last], x.target = none → x = last := by
    intro x hx hxnone
    rcases List.mem_append.1 hx with hx | hx
    · exact absurd hxnone (hbefore x hx)
    · exact List.mem_singleton.1 hx
  rw [hlast c hc hnone, hlast c' hc' hnone']

/-- No set meets all constraints of a derivation. -/
theorem no_model (h : Derivation cs w) {T : Datapoint → Prop} (hT : Datapoint.Closed T)
    (hmeets : ∀ c ∈ w, c.Meets T) : False := by
  have hderived : ∀ before after, w = before ++ after → ∀ d, Derived before d → T d := by
    intro before
    induction before using List.reverseRecOn with
    | nil =>
      intro after _ d hd
      obtain ⟨c, hc, -⟩ := hd
      cases hc
    | append_singleton before x ih =>
      intro after heq d hd
      rw [List.append_assoc, List.singleton_append] at heq
      obtain ⟨c, hc, t, ht, hsub⟩ := hd
      rcases List.mem_append.1 hc with hc | hc
      · exact ih _ heq d ⟨c, hc, t, ht, hsub⟩
      · rw [List.mem_singleton.1 hc] at ht
        have hx : x ∈ w := heq ▸ List.mem_append_right _ List.mem_cons_self
        obtain ⟨t', ht', hTt⟩ := hmeets x hx fun s hs =>
          ih _ heq s (h.grounded before x after heq s hs)
        cases ht.symm.trans ht'
        exact hT d t hTt hsub
  obtain ⟨before, last, hw, hnone, -⟩ := h.ends
  have hlast : last ∈ w := hw ▸ List.mem_append_right _ List.mem_cons_self
  obtain ⟨t, ht, -⟩ := hmeets last hlast fun s hs =>
    hderived before [last] hw s (h.grounded before last [] hw s hs)
  cases hnone.symm.trans ht

theorem mem_before (h : Derivation cs w) (heconomical : Economical w) (hunnested : Unnested w)
    (hc : c ∈ w) (ht : c.target = some t) {before after : List Constraint}
    (hw : w = before ++ c' :: after) (hs : t ∈ c'.sources) : c ∈ before := by
  have hc' : c' ∈ w := hw ▸ List.mem_append_right _ List.mem_cons_self
  obtain ⟨x, hx, u, hu, hsub⟩ := h.grounded before c' after hw t hs
  have hxw : x ∈ w := hw ▸ List.mem_append_left _ hx
  have heq := hunnested c' hc' t hs x hxw u hu hsub
  rw [heconomical.distinct c hc x hxw t ht (heq ▸ hu)]
  exact hx

/-- If a target is lost, so is a source of the constraint without target. For the last target that
is lost is needed by a constraint that loses nothing. -/
theorem exists_lost_source (h : Derivation cs w) (heconomical : Economical w)
    (hunnested : Unnested w) {before after : List Constraint} (hw : w = before ++ after)
    (hsome : ∃ x ∈ after, ∃ t, x.target = some t ∧ Lost w c t) :
    ∃ last ∈ w, last.target = none ∧ ∃ s ∈ last.sources, Lost w c s := by
  induction after generalizing before with
  | nil =>
    obtain ⟨x, hx, -⟩ := hsome
    cases hx
  | cons y after ih =>
    by_cases hlater : ∃ x ∈ after, ∃ t, x.target = some t ∧ Lost w c t
    · rw [← List.singleton_append, ← List.append_assoc] at hw
      exact ih hw hlater
    · obtain ⟨x, hx, t, ht, hlost⟩ := hsome
      have hxy : x = y := (List.mem_cons.1 hx).resolve_right fun hx =>
        hlater ⟨x, hx, t, ht, hlost⟩
      subst hxy
      have hxw : x ∈ w := hw ▸ List.mem_append_right _ List.mem_cons_self
      obtain ⟨z, hz, hs⟩ := heconomical.used x hxw t ht
      cases hu : z.target with
      | none => exact ⟨z, hz, hu, t, hs, hlost⟩
      | some u =>
        -- the one that needs it loses its own target, so it does not come later
        have hearlier : z ∈ before ∨ z = x := by
          rcases List.mem_append.1 (hw ▸ hz) with hz' | hz'
          · exact .inl hz'
          · refine .inr ((List.mem_cons.1 hz').resolve_right fun hz' => hlater ?_)
            exact ⟨z, hz', u, hu, .step hz hs hlost hu⟩
        have hnodup := h.nodup
        rw [hw] at hnodup
        refine absurd List.mem_cons_self (List.disjoint_of_nodup_append hnodup (a := x) ?_)
        rcases hearlier with hz' | rfl
        · obtain ⟨front, back, rfl⟩ := List.append_of_mem hz'
          rw [List.append_assoc, List.cons_append] at hw
          exact List.mem_append_left _ (h.mem_before heconomical hunnested hxw ht hw hs)
        · exact h.mem_before heconomical hunnested hxw ht hw hs

/-- Without one of its constraints a derivation has a model: what is not lost. -/
theorem exists_model_without (h : Derivation cs w) (heconomical : Economical w)
    (hunnested : Unnested w) (hc : c ∈ w) :
    ∃ T, Datapoint.Closed T ∧ ∀ c' ∈ w, c' ≠ c → c'.Meets T := by
  refine ⟨fun d => ∃ x ∈ w, ∃ t, x.target = some t ∧ ¬Lost w c t ∧ d.subset t = true, ?_, ?_⟩
  · intro d e he hsub
    obtain ⟨x, hx, t, ht, hfree, hsub'⟩ := he
    exact ⟨x, hx, t, ht, hfree, Datapoint.subset_trans hsub hsub'⟩
  · intro c' hc' hne hsources
    have hfree : ∀ s ∈ c'.sources, ¬Lost w c s := by
      intro s hs
      obtain ⟨x, hx, t, ht, hfree, hsub⟩ := hsources s hs
      rwa [hunnested c' hc' s hs x hx t ht hsub]
    cases ht : c'.target with
    | some t =>
      refine ⟨t, rfl, c', hc', t, ht, fun hlost => ?_, Datapoint.subset_refl t⟩
      cases hlost with
      | target ht' => exact hne (heconomical.distinct c' hc' c hc t ht ht')
      | step hx hs hlost ht' =>
        rw [heconomical.distinct _ hx c' hc' t ht' ht] at hs
        exact hfree _ hs hlost
    | none =>
      cases ht' : c.target with
      | none => exact absurd (h.eq_of_target_none hc' hc ht ht') hne
      | some t =>
        obtain ⟨last, hlast, hnone, s, hs, hlost⟩ := h.exists_lost_source heconomical hunnested
          (List.nil_append w).symm ⟨c, hc, t, ht', .target ht'⟩
        rw [h.eq_of_target_none hlast hc' hnone ht] at hs
        exact absurd hlost (hfree s hs)

end Derivation

/-- Constraints that are a contradiction in whatever order they are added. With one of them missing
the others are none, in whatever order. -/
structure Irredundant (w : List Constraint) : Prop where
  contradictory : ∀ all, w ⊆ all → ∃ e, (Knowledge.insertAll {} all).1 = .error e
  minimal : ∀ c ∈ w, ∀ rest, rest ⊆ w.erase c → ∃ n, (Knowledge.insertAll {} rest).1 = .ok n

theorem Derivation.irredundant {cs : Constraint → Prop} {w : List Constraint}
    (h : Derivation cs w) (heconomical : Economical w) (hunnested : Unnested w) :
    Irredundant w := by
  constructor
  · intro all hall
    simp only [Knowledge.insertAll_eq_error_iff]
    rw [Knowledge.Reachable.empty.assume_eq_error_iff]
    rintro ⟨T, hT, -, hmeets⟩
    exact h.no_model hT fun c hc => hmeets c (hall hc)
  · intro c hc rest hrest
    obtain ⟨T, hT, hmeets⟩ := h.exists_model_without heconomical hunnested hc
    have hempty : Knowledge.Respects {} T := Knowledge.Reachable.empty.respects hT (by simp)
    have hothers : ∀ c' ∈ rest, c'.Meets T := by
      intro c' hc'
      obtain ⟨hne, hc'⟩ := h.nodup.mem_erase_iff.1 (hrest hc')
      exact hmeets c' hc' hne
    obtain ⟨n, k, hrun, -⟩ := hempty.insertAll hothers
    exact ⟨n, by rw [hrun]⟩

/-! ## Explanations that need all their constraints -/

namespace Knowledge

variable {k k' : Knowledge} {chain : Chain} {d e t : Datapoint} {l : Label} {fuel id : Nat}
  {c : Constraint} {es goals goals' : List Datapoint} {f : Datapoint → Option Constraint}

/-- No label is taken over from another datapoint. -/
def Direct (k : Knowledge) : Prop := ∀ d l e, k.label? d = some l → l.reason ≠ .subsumed e

def provider? (k : Knowledge) (d : Datapoint) : Option Constraint :=
  match k.label? d with
  | some ⟨true, _, .constraint id⟩ => k.constraints[id]?
  | _ => none

/-- The constraints of a chain are those that are chosen for their targets, and their targets are
sources of others or goals. -/
def Supplies (k : Knowledge) (f : Datapoint → Option Constraint) (goals : List Datapoint)
    (chain : Chain) : Prop :=
  ∀ c ∈ k.written chain, ∃ t, c.target = some t ∧ f t = some c ∧
    (t ∈ goals ∨ ∃ c' ∈ k.written chain, t ∈ c'.sources)

theorem supplies_empty : k.Supplies f goals {} := by simp [Supplies, written]

theorem Supplies.mono (h : k.Supplies f goals chain) (hsub : goals ⊆ goals') :
    k.Supplies f goals' chain := by
  intro c hc
  obtain ⟨t, ht, hf, hneeded⟩ := h c hc
  exact ⟨t, ht, hf, hneeded.imp_left (hsub ·)⟩

theorem Supplies.targets (h : k.Supplies f goals chain) :
    ∀ c ∈ k.written chain, c.target ≠ none := by
  intro c hc
  obtain ⟨t, ht, -⟩ := h c hc
  rw [ht]
  exact Option.some_ne_none t

theorem mem_written_push (hc : k.constraints[id]? = some c) {x : Constraint} :
    x ∈ k.written (chain.push id) ↔ x ∈ k.written chain ∨ x = c := by
  rcases written_push chain hc with ⟨hmem, heq⟩ | ⟨-, -, hwritten⟩
  · rw [heq]
    exact ⟨.inl, fun hx => hx.elim (fun hx => hx) fun hx => hx ▸ hmem⟩
  · rw [hwritten, List.mem_append, List.mem_singleton]

theorem Supplies.needed_push (h : k.Supplies f (c.sources ++ goals) chain)
    (hc : k.constraints[id]? = some c) {x : Constraint} (hx : x ∈ k.written chain) :
    ∃ t, x.target = some t ∧ f t = some x ∧
      (t ∈ goals ∨ ∃ c' ∈ k.written (chain.push id), t ∈ c'.sources) := by
  obtain ⟨t, ht, hf, hneeded⟩ := h x hx
  refine ⟨t, ht, hf, ?_⟩
  rcases hneeded with hgoal | ⟨c', hc', hs⟩
  · rcases List.mem_append.1 hgoal with hs | hgoal
    · exact .inr ⟨c, (mem_written_push hc).2 (.inr rfl), hs⟩
    · exact .inl hgoal
  · exact .inr ⟨c', (mem_written_push hc).2 (.inl hc'), hs⟩

/-- A constraint that is used meets its sources, and its target is a new goal. -/
theorem Supplies.push (h : k.Supplies f (c.sources ++ goals) chain)
    (hc : k.constraints[id]? = some c) (ht : c.target = some t) (hf : f t = some c) :
    k.Supplies f (t :: goals) (chain.push id) := by
  intro x hx
  rcases (mem_written_push hc).1 hx with hx | rfl
  · obtain ⟨u, hu, hfu, hneeded⟩ := h.needed_push hc hx
    exact ⟨u, hu, hfu, hneeded.imp_left (List.mem_cons_of_mem t)⟩
  · exact ⟨t, ht, hf, .inl List.mem_cons_self⟩

/-- The constraint without target meets the last goals. -/
theorem Supplies.economical (h : k.Supplies f (c.sources ++ []) chain)
    (hc : k.constraints[id]? = some c) (hnone : c.target = none) :
    Economical (k.written (chain.push id)) := by
  have hall : ∀ x ∈ k.written (chain.push id), ∀ t, x.target = some t →
      f t = some x ∧ ∃ c' ∈ k.written (chain.push id), t ∈ c'.sources := by
    intro x hx t ht
    rcases (mem_written_push hc).1 hx with hx | rfl
    · obtain ⟨u, hu, hfu, hneeded⟩ := h.needed_push hc hx
      cases ht.symm.trans hu
      exact ⟨hfu, hneeded.resolve_left List.not_mem_nil⟩
    · cases hnone.symm.trans ht
  refine ⟨fun x hx y hy t hxt hyt => ?_, fun x hx t ht => (hall x hx t ht).2⟩
  exact Option.some.inj ((hall x hx t hxt).1.symm.trans (hall y hy t hyt).1)

/-! ### True labels -/

theorem Reasoned.exists_forced (hk : k.Reasoned) (hdirect : k.Direct) (hl : k.label? d = some l) :
    ∃ id c, l.reason = .constraint id ∧ k.constraints[id]? = some c ∧
      c.Forces (k.HasLabel false) d l.polarity := by
  cases hk.justified d l hl with
  | subsumed hreason => exact absurd hreason (hdirect d l _ hl)
  | forced hreason hc hforces =>
    exact ⟨_, _, hreason, hc, hforces.imp fun _ _ _ => HasLabel.weaken⟩

theorem provider?_eq_some (hl : k.label? d = some l) (htrue : l.polarity = true)
    (hreason : l.reason = .constraint id) (hc : k.constraints[id]? = some c) :
    k.provider? d = some c := by
  obtain ⟨polarity, universal, reason⟩ := l
  subst htrue hreason
  rw [provider?, hl]
  exact hc

theorem hasLabel_of_provider? (h : k.provider? d = some c) : k.HasLabel false d true := by
  rw [provider?] at h
  split at h
  · next hl => exact ⟨_, hl, rfl, nofun⟩
  · cases h

theorem supplies_foldl {step : Chain → Datapoint → Chain}
    (hstep : ∀ e ∈ es, ∀ chain goals, k.Supplies f goals chain →
      k.Supplies f (e :: goals) (step chain e))
    (h : k.Supplies f goals chain) : k.Supplies f (es ++ goals) (es.foldl step chain) := by
  induction es generalizing chain goals with
  | nil => exact h
  | cons e es ih =>
    have hrest := ih (fun x hx => hstep x (List.mem_cons_of_mem e hx))
      (hstep e List.mem_cons_self chain goals h)
    exact hrest.mono List.perm_middle.subset

theorem supplies_forced (hreason : l.reason = .constraint id) (hc : k.constraints[id]? = some c)
    (htrue : l.polarity = true) (ht : c.target = some d) (hf : f d = some c)
    (hsources : ∀ s ∈ c.sources, ∀ chain goals, k.Supplies f goals chain →
      k.Supplies f (s :: goals) (k.explainPoint fuel chain s))
    (h : k.Supplies f goals chain) :
    k.Supplies f (d :: goals) (k.explain (fuel + 1) d l chain) := by
  cases hknown : chain.knows d l.polarity with
  | true =>
    rw [explain_known hknown]
    exact h.mono (List.subset_cons_self d goals)
  | false =>
    rw [explain_forced_true hknown hreason hc htrue]
    have hvisit : k.Supplies f goals (chain.visit d true) := h
    exact (supplies_foldl hsources hvisit).push hc ht hf

theorem supplies_explain (hk : k.Reasoned) (hdirect : k.Direct)
    (hf : ∀ e c, k.provider? e = some c → f e = some c) (hl : k.label? d = some l)
    (htrue : l.polarity = true) (h : k.Supplies f goals chain) :
    k.Supplies f (d :: goals) (k.explain fuel d l chain) := by
  induction fuel generalizing d l chain goals with
  | zero =>
    rw [explain]
    exact h.mono (List.subset_cons_self d goals)
  | succ fuel ih =>
    obtain ⟨id, c, hreason, hc, hforces⟩ := hk.exists_forced hdirect hl
    rw [htrue] at hforces
    have hd := hf d c (provider?_eq_some hl htrue hreason hc)
    refine supplies_forced hreason hc htrue hforces.1 hd (fun s hs chain goals h => ?_) h
    obtain ⟨l', hl', htrue', -⟩ := hforces.2 s hs
    rw [explainPoint_eq hl']
    exact ih hl' htrue' h

theorem supplies_point (hk : k.Reasoned) (hdirect : k.Direct)
    (hf : ∀ e c, k.provider? e = some c → f e = some c) (he : k.HasLabel false e true)
    (h : k.Supplies f goals chain) : k.Supplies f (e :: goals) (k.explainPoint fuel chain e) := by
  obtain ⟨l, hl, htrue, -⟩ := he
  rw [explainPoint_eq hl]
  exact supplies_explain hk hdirect hf hl htrue h

/-! ### False labels -/

/-- The constraints that are chosen when a false datapoint is pursued. A true datapoint has the one
that makes it true, and another has one only if it was pursued before. -/
structure Trail (k : Knowledge) (f : Datapoint → Option Constraint) (d : Datapoint) : Prop where
  provided : ∀ e c, k.provider? e = some c → f e = some c
  pursued : ∀ x c, f x = some c → k.HasLabel false x true ∨ Relation.ReflTransGen k.Premise d x

theorem Trail.unused (hk : k.Reasoned) (h : k.Trail f d) (hpremise : k.Premise t d)
    (ht : k.HasLabel false t false) : f t = none := by
  cases hf : f t with
  | none => rfl
  | some c =>
    rcases h.pursued t c hf with htrue | hleads
    · cases htrue.unique ht
    · exact absurd hleads (hk.not_leads hpremise)

theorem trail_provider? : k.Trail k.provider? d :=
  ⟨fun _ _ h => h, fun _ _ h => .inl (hasLabel_of_provider? h)⟩

theorem Trail.next (h : k.Trail f d) (hleads : Relation.ReflTransGen k.Premise t d)
    (ht : k.HasLabel false t false) (c : Constraint) :
    k.Trail (Function.update f t (some c)) t := by
  constructor
  · intro e c' he
    rw [Function.update_of_ne]
    · exact h.provided e c' he
    · rintro rfl
      cases (hasLabel_of_provider? he).unique ht
  · intro x c' hx
    by_cases hxt : x = t
    · exact .inr (hxt ▸ .refl)
    · rw [Function.update_of_ne hxt] at hx
      exact (h.pursued x c' hx).imp_right hleads.trans

theorem Supplies.update (h : k.Supplies f goals chain) (hunused : f t = none) (c : Constraint) :
    k.Supplies (Function.update f t (some c)) goals chain := by
  intro c' hc'
  obtain ⟨u, hu, hfu, hneeded⟩ := h c' hc'
  refine ⟨u, hu, ?_, hneeded⟩
  rw [Function.update_of_ne]
  · exact hfu
  · rintro rfl
    cases hunused.symm.trans hfu

/-- When the other sources of a constraint are explained, the one that is pursued is met as well. -/
theorem supplies_others (hk : k.Reasoned) (hdirect : k.Direct) (htrail : k.Trail f d)
    (hd : d ∈ c.sources) (hothers : ∀ s ∈ c.sources, s ≠ d → k.HasLabel false s true)
    (h : k.Supplies f [d] chain) (fuel : Nat) :
    k.Supplies f (c.sources ++ [])
      ((c.sources.filter (· ≠ d)).foldl (k.explainPoint fuel) chain) := by
  have hexplained : k.Supplies f (c.sources.filter (· ≠ d) ++ [d])
      ((c.sources.filter (· ≠ d)).foldl (k.explainPoint fuel) chain) := by
    refine supplies_foldl (fun s hs chain goals => ?_) h
    obtain ⟨hs, hne⟩ := List.mem_filter.1 hs
    exact supplies_point hk hdirect htrail.provided (hothers s hs (of_decide_eq_true hne))
  refine hexplained.mono fun s hs => ?_
  rw [List.append_nil]
  rcases List.mem_append.1 hs with hs | hs
  · exact (List.mem_filter.1 hs).1
  · rwa [List.mem_singleton.1 hs]

/-- Pursuing a false label uses each constraint for a datapoint of its own, once it ends. -/
theorem economical_of_label (hk : k.Reasoned) (hdirect : k.Direct) (hl : k.label? d = some l)
    (hfalse : l.polarity = false) (htrail : k.Trail f d) (h : k.Supplies f [d] chain) :
    (∀ c ∈ k.written (k.explain fuel d l chain), c.target ≠ none) ∨
      Economical (k.written (k.explain fuel d l chain)) := by
  induction fuel generalizing d l chain f with
  | zero => exact .inl h.targets
  | succ fuel ih =>
    cases hknown : chain.knows d l.polarity with
    | true =>
      rw [explain_known hknown]
      exact .inl h.targets
    | false =>
      obtain ⟨id, c, hreason, hc, hforces⟩ := hk.exists_forced hdirect hl
      rw [hfalse] at hforces
      obtain ⟨hd, htarget, hothers⟩ := hforces
      rw [explain_forced_false hknown hreason hc hfalse]
      have hvisit : k.Supplies f [d] (chain.visit d false) := h
      have hsupplies := supplies_others hk hdirect htrail hd hothers hvisit fuel
      cases ht : c.target with
      | none => exact .inr (hsupplies.economical hc ht)
      | some t =>
        have hpremise : k.Premise t d := ⟨l, hl, .target hreason hc hfalse ht⟩
        have hlabel := htarget t ht
        have hnext := hsupplies.update (htrail.unused hk hpremise hlabel) c
        have hpushed := hnext.push hc ht (Function.update_self t (some c) f)
        obtain ⟨l', hl', hfalse', -⟩ := hlabel
        simp only [Option.toList_some, List.foldl_cons, List.foldl_nil]
        rw [explainPoint_eq hl']
        exact ih hl' hfalse' (htrail.next (.single hpremise) ⟨l', hl', hfalse', nofun⟩ c) hpushed

theorem economical_of_reached {fuel' : Nat} {l' : Label} (hk : k.Reasoned) (hdirect : k.Direct)
    (hreason : l.reason = .constraint id) (hc : k.constraints[id]? = some c)
    (htrue : l.polarity = true) (ht : c.target = some d)
    (hsources : ∀ s ∈ c.sources, k.HasLabel false s true) (hl' : k.label? d = some l')
    (hfalse : l'.polarity = false) :
    (∀ c ∈ k.written (k.explain fuel' d l' (k.explain (fuel + 1) d l {})), c.target ≠ none) ∨
      Economical (k.written (k.explain fuel' d l' (k.explain (fuel + 1) d l {}))) := by
  have htrail : k.Trail (Function.update k.provider? d (some c)) d :=
    trail_provider?.next .refl ⟨l', hl', hfalse, nofun⟩ c
  have hsupplies : k.Supplies (Function.update k.provider? d (some c)) [d]
      (k.explain (fuel + 1) d l {}) :=
    supplies_forced hreason hc htrue ht (Function.update_self d (some c) k.provider?)
      (fun s hs chain goals => supplies_point hk hdirect htrail.provided (hsources s hs))
      supplies_empty
  exact economical_of_label hk hdirect hl' hfalse htrail hsupplies

theorem economical_of_sources (hk : k.Reasoned) (hdirect : k.Direct)
    (hc : k.constraints[id]? = some c) (hnone : c.target = none)
    (hsources : ∀ s ∈ c.sources, k.HasLabel false s true) :
    Economical (k.written ((c.sources.foldl (k.explainPoint fuel) {}).push id)) := by
  have hsupplies : k.Supplies k.provider? (c.sources ++ [])
      (c.sources.foldl (k.explainPoint fuel) {}) :=
    supplies_foldl (fun s hs chain goals =>
      supplies_point hk hdirect (fun _ _ h => h) (hsources s hs)) supplies_empty
  exact hsupplies.economical hc hnone

end Knowledge

/-! ## Datapoints that fix the same variables -/

/-- Datapoints of which those at one site fix the same variables. -/
def Datapoint.Uniform (U : Datapoint → Prop) : Prop :=
  ∀ d e, U d → U e → d.site = e.site → ∀ x, x ∈ d.valuation.keys ↔ x ∈ e.valuation.keys

namespace Datapoint.Uniform

variable {U : Datapoint → Prop} {d e m : Datapoint}

theorem eq_of_subset (h : Uniform U) (hd : U d) (he : U e) (hsub : d.subset e = true) : d = e := by
  obtain ⟨hsite, hvalues⟩ := subset_iff.1 hsub
  refine subset_antisymm hsub (subset_iff.2 ⟨hsite.symm, fun x v hx => ?_⟩)
  have hkey := (h d e hd he hsite x).1 (SortedMap.mem_keys_iff.2 ⟨v, hx⟩)
  obtain ⟨v', hv'⟩ := SortedMap.mem_keys_iff.1 hkey
  rw [hv', ← hvalues x v' hv', hx]

theorem eq_of_inherits (h : Uniform U) (hd : U d) (he : U e) {p : Bool}
    (hinherits : d.inherits p e = true) : d = e := by
  cases p with
  | true => exact h.eq_of_subset hd he hinherits
  | false => exact (h.eq_of_subset he hd hinherits).symm

theorem meet (h : Uniform U) (hd : U d) (he : U e) (hm : d.meet? e = some m) : U m := by
  obtain ⟨hagree, hsite, hvalues⟩ := meet?_eq_some_iff.1 hm
  obtain ⟨hsame, -⟩ := disjoint_eq_false_iff.1 hagree
  have heq : m = d := by
    apply eq_of_get? hsite
    intro x
    rw [hvalues]
    cases hx : d.valuation.get? x with
    | some v => rfl
    | none =>
      cases hx' : e.valuation.get? x with
      | none => rfl
      | some v =>
        have hkey := (h d e hd he hsame x).2 (SortedMap.mem_keys_iff.2 ⟨v, hx'⟩)
        obtain ⟨v', hv'⟩ := SortedMap.mem_keys_iff.1 hkey
        cases hx.symm.trans hv'
  exact heq ▸ hd

end Datapoint.Uniform

namespace Knowledge

variable {k k' : Knowledge} {c : Constraint} {U : Datapoint → Prop} {e : Contradiction}

/-- Knowledge that is about given datapoints only. -/
structure About (U : Datapoint → Prop) (k : Knowledge) : Prop where
  mentioned : ∀ d, k.Mentions d → U d
  registered : ∀ d ∈ k.datapoints, U d
  labelled : ∀ d l, k.label? d = some l → U d

theorem About.hasLabel {sure p : Bool} {d : Datapoint} (h : k.About U) (hd : k.HasLabel sure d p) :
    U d := by
  obtain ⟨l, hl, -⟩ := hd
  exact h.labelled d l hl

theorem Justified.about {d : Datapoint} {l : Label} (h : k.Justified d l) (hk : k.About U)
    (hd : ∀ e, l.reason = .subsumed e → d ∈ k.datapoints) : U d := by
  cases h with
  | subsumed hreason => exact hk.registered d (hd _ hreason)
  | @forced _ c _ hc hforces =>
    refine hk.mentioned d ⟨c, Array.mem_of_getElem? hc, ?_⟩
    cases hpolarity : l.polarity with
    | true =>
      rw [hpolarity] at hforces
      exact target_mem_datapoints hforces.1
    | false =>
      rw [hpolarity] at hforces
      exact source_mem_datapoints hforces.1

theorem About.change (hU : Datapoint.Uniform U) (h : k.About U) (hchange : k.Change k') :
    k'.About U := by
  cases hchange with
  | @point d hd =>
    refine ⟨h.mentioned, fun x hx => ?_, h.labelled⟩
    rcases mem_datapoints_insert.1 hx with rfl | hx
    · rcases hd with hd | ⟨e, he, f, hf, hmeet⟩
      · exact h.mentioned x hd
      · exact hU.meet (h.registered e he) (h.registered f hf) hmeet
    · exact h.registered x hx
  | label hl hd hset =>
    have hgrows := Change.grows (.label hl hd hset)
    refine ⟨fun x hx => h.mentioned x ?_, fun x hx => h.registered x ?_, fun x l' hx => ?_⟩
    · rwa [Mentions, hgrows.constraints_eq] at hx
    · rwa [(advances_setLabel hset).datapoints_eq] at hx
    · rcases (hasLabel_setLabel hset).1 ⟨l', hx, rfl, id⟩ with hold | ⟨rfl, -⟩
      · exact h.hasLabel hold
      · exact hl.about h hd

theorem About.changes (hU : Datapoint.Uniform U) (h : k.About U) (hchanges : k.Changes k') :
    k'.About U := by
  induction hchanges with
  | refl => exact h
  | tail _ hchange ih => exact ih.change hU hchange

theorem About.push (h : k.About U) (hc : ∀ d ∈ c.datapoints, U d) :
    About U { k with constraints := k.constraints.push c } := by
  refine ⟨fun d hd => ?_, h.registered, h.labelled⟩
  obtain ⟨c', hc', hd⟩ := hd
  rcases Array.mem_push.1 hc' with hc' | rfl
  · exact h.mentioned d ⟨c', hc', hd⟩
  · exact hc d hd

theorem Reachable.about (hU : Datapoint.Uniform U) (h : k.Reachable)
    (hk : ∀ d, k.Mentions d → U d) : k.About U := by
  induction h with
  | empty =>
    refine ⟨hk, fun d hd => ?_, fun d l hl => ?_⟩
    · cases hd
    · cases hl
  | @insert k k' c added hreachable hinsert ih =>
    have hmem := (hreachable.saturated.insert hinsert).2
    have habout := ih fun d hd => by
      obtain ⟨c', hc', hd⟩ := hd
      exact hk d ⟨c', (hmem c').2 (.inl hc'), hd⟩
    rcases changes_of_insert hinsert with rfl | ⟨-, hchanges⟩
    · exact habout
    · exact (habout.push fun d hd => hk d ⟨c, (hmem c).2 (.inr rfl), hd⟩).changes hU hchanges
  | simplify _ ih =>
    have habout := ih hk
    exact ⟨habout.mentioned, habout.registered, habout.labelled⟩

/-- A label that is taken over would be taken over from itself. -/
theorem About.direct (hU : Datapoint.Uniform U) (h : k.About U) (hk : k.Reasoned) : k.Direct := by
  intro d l e hl hreason
  have hpremise : k.Premise e d := ⟨l, hl, .subsumed hreason⟩
  cases hk.justified d l hl with
  | subsumed hreason' hinherits hlabel =>
    cases hreason.symm.trans hreason'
    have heq := hU.eq_of_inherits (h.labelled d l hl) (h.hasLabel hlabel) hinherits
    subst heq
    exact hk.not_leads hpremise .refl
  | forced hreason' => cases hreason.symm.trans hreason'

/-- The constraints of a contradiction are all needed. -/
theorem Clash.economical (hU : Datapoint.Uniform U) (hclash : k.Clash e) (h : k.About U)
    (hk : k.Reasoned) (hnodup : k.constraints.toList.Nodup) : Economical e.witness := by
  have hdirect := h.direct hU hk
  obtain ⟨before, last, hends, hnone, -⟩ := (hclash.derivation hk hnodup).ends
  have hlast : last ∈ e.witness := hends ▸ List.mem_append_right _ List.mem_cons_self
  cases hclash with
  | @reached d t f ht htrue hf hfalse =>
    cases ht with
    | @subsumed x hreason hinherits hlabel =>
      have heq := hU.eq_of_inherits (h.labelled d f hf) (h.hasLabel hlabel) hinherits
      subst heq
      rw [htrue] at hlabel
      cases hlabel.unique (⟨f, hf, hfalse, nofun⟩ : k.HasLabel false d false)
    | @forced id c hreason hc hforces =>
      rw [htrue] at hforces
      rcases economical_of_reached hk hdirect hreason hc htrue hforces.1
        (fun s hs => (hforces.2 s hs).weaken) hf hfalse with hall | hall
      · exact absurd hnone (hall last hlast)
      · exact hall
  | @excluded d x t f hreason hfalse hsub hx ht htrue =>
    have heq := hU.eq_of_subset (h.hasLabel hx) (h.labelled d t ht) hsub
    subst heq
    cases hx.unique (⟨t, ht, htrue, nofun⟩ : k.HasLabel false x true)
  | @fired id c hc hnone htrue =>
    exact economical_of_sources hk hdirect hc hnone htrue

theorem About.unnested (hU : Datapoint.Uniform U) (h : k.About U) {w : List Constraint}
    (hw : ∀ c ∈ w, c ∈ k.constraints) : Unnested w := by
  intro c hc s hs c' hc' t ht hsub
  exact hU.eq_of_subset (h.mentioned s ⟨c, hw c hc, source_mem_datapoints hs⟩)
    (h.mentioned t ⟨c', hw c' hc', target_mem_datapoints ht⟩) hsub

theorem Reachable.irredundant_insert (hU : Datapoint.Uniform U) (h : k.Reachable)
    (hk : ∀ d, k.Mentions d → U d) (hc : ∀ d ∈ c.datapoints, U d) (hfails : k.insert c = .error e) :
    Irredundant e.witness := by
  obtain ⟨hnew, k', hchanges, hclash⟩ := clash_of_insert hfails
  have habout := ((h.about hU hk).push hc).changes hU hchanges
  have hreasoned := (h.reasoned.push c).changes hchanges
  have hnodup : k'.constraints.toList.Nodup :=
    hchanges.grows.constraints_eq ▸ nodup_push h.nodup hnew
  have hderivation := hclash.derivation hreasoned hnodup
  exact hderivation.irredundant (hclash.economical hU habout hreasoned hnodup)
    (habout.unnested hU hderivation.members)

theorem Reachable.irredundant_assume (hU : Datapoint.Uniform U) {cs : List Constraint}
    (h : k.Reachable) (hk : ∀ d, k.Mentions d → U d) (hcs : ∀ c ∈ cs, ∀ d ∈ c.datapoints, U d)
    (hfails : k.assume cs = .error e) : Irredundant e.witness := by
  obtain ⟨k', c, hk', hmem, hc, hinsert⟩ := h.exists_insert_of_assume hfails
  refine hk'.irredundant_insert hU (fun d hd => ?_) (hcs c hc) hinsert
  obtain ⟨c', hc', hd⟩ := hd
  rcases hmem c' hc' with hc' | hc'
  · exact hk d ⟨c', hc', hd⟩
  · exact hcs c' hc' d hd

theorem Reachable.irredundant_guesses {ds : List Datapoint} {guess : Datapoint → Constraint}
    (h : k.Reachable) (hguess : ∀ d, (guess d).datapoints = [d])
    (hU : Datapoint.Uniform fun d => k.Mentions d ∨ d ∈ ds)
    (hfails : k.assume (ds.map guess) = .error e) : Irredundant e.witness := by
  refine h.irredundant_assume hU (fun d => .inl) (List.forall_mem_map.2 fun d hd x hx => ?_) hfails
  rw [hguess, List.mem_singleton] at hx
  exact .inr (hx ▸ hd)

end Knowledge

/-- If all datapoints at a site fix the same variables, no constraint of a contradiction can be left
out: the others can be added to nothing in any order. All of them together are a contradiction in
any order. This holds whether constraints are added in a row or datapoints are guessed. -/
theorem contradiction_is_irredundant {k : Knowledge} (hk : k.Reachable) :
    (∀ cs e, Datapoint.Uniform (fun d => k.Mentions d ∨ ∃ c ∈ cs, d ∈ c.datapoints) →
      (k.insertAll cs).1 = .error e → Irredundant e.witness) ∧
    (∀ ds e, Datapoint.Uniform (fun d => k.Mentions d ∨ d ∈ ds) →
      k.withTrue ds = .error e → Irredundant e.witness) ∧
    ∀ ds e, Datapoint.Uniform (fun d => k.Mentions d ∨ d ∈ ds) →
      k.withFalse ds = .error e → Irredundant e.witness := by
  refine ⟨fun cs e hU hfails => ?_, fun ds e hU => ?_, fun ds e hU => ?_⟩
  · refine hk.irredundant_assume hU (fun d => .inl) (fun c hc d hd => .inr ⟨c, hc, hd⟩) ?_
    exact Knowledge.insertAll_eq_error_iff.1 hfails
  · exact hk.irredundant_guesses (fun d => rfl) hU
  · exact hk.irredundant_guesses (fun d => rfl) hU

def detourToError : List Constraint :=
  let point (i : Int64) : Datapoint := ⟨0, .ofList [("x", .int i)]⟩
  [⟨[point 2], none, .clause 3⟩, ⟨[point 1], some (point 2), .clause 2⟩,
    ⟨[], some (point 5), .clause 1⟩, ⟨[], some (point 1), .clause 0⟩]

/-- The state on the side is not part of the contradiction, and everything else is needed. -/
theorem detourToError_irredundant :
    ∃ e, (Knowledge.insertAll {} detourToError).1 = .error e ∧
      e.witness.map (·.origin) = [.clause 0, .clause 2, .clause 3] ∧ Irredundant e.witness := by
  have hkeys : ∀ c ∈ detourToError, ∀ d ∈ c.datapoints, d.valuation.keys = ["x"] := by decide
  have huniform : Datapoint.Uniform fun d =>
      Knowledge.Mentions {} d ∨ ∃ c ∈ detourToError, d ∈ c.datapoints := by
    have hkeys' : ∀ d, (Knowledge.Mentions {} d ∨ ∃ c ∈ detourToError, d ∈ c.datapoints) →
        d.valuation.keys = ["x"] := by
      intro d hd
      rcases hd with ⟨c, hc, -⟩ | ⟨c, hc, hd⟩
      · exact absurd hc (Array.not_mem_empty c)
      · exact hkeys c hc d hd
    intro d e hd he _ x
    rw [hkeys' d hd, hkeys' e he]
  have hfails : (Knowledge.insertAll {} detourToError).1.mapError (·.witness.map (·.origin)) =
      .error [.clause 0, .clause 2, .clause 3] := by decide +kernel
  cases hinsert : (Knowledge.insertAll {} detourToError).1 with
  | ok n =>
    rw [hinsert] at hfails
    cases hfails
  | error e =>
    rw [hinsert] at hfails
    exact ⟨e, rfl, Except.error.inj hfails,
      (contradiction_is_irredundant .empty).1 detourToError e huniform hinsert⟩

end LoopInvariant
