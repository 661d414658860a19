import LoopInvariant.Proofs.Labelling
import Mathlib.Order.FixedPoints
/-!
# Labels are a least fixpoint

What deduction comes to does not depend on how it got there. The labels are the least fixpoint of the
rules over the constraints and the registered datapoints, and the universal labels are the least
fixpoint of the same rules over the constraints that are no guesses.

No label is given that the rules do not give, and whatever the rules give has been given or waits in
the queue. Constraints may be retired on the way: such a constraint has its conclusion for good.
-/

namespace LoopInvariant

namespace Knowledge

variable {k k' : Knowledge} {sure : Bool} {d e : Datapoint} {p q : Bool} {l : Label} {c : Constraint}
  {added : Bool} {queue : List Pending} {s s' : Knowledge × List Pending}

/-! ## Whatever follows is drawn -/

/-- Whatever follows from the labels has been drawn among some datapoints, or waits. -/
structure Drawn (k : Knowledge) (ds : List Datapoint) (queue : List Pending) : Prop where
  inherited : ∀ {sure e p}, k.HasLabel sure e p → .labelled e ∈ queue ∨
    ∀ d ∈ ds, d.inherits p e = true → k.HasLabel sure d p
  forced : ∀ {sure i c}, k.constraints[i]? = some c → (sure = true → c.isAssumed = false) →
    .check i ∈ queue ∨ (∃ e p, c.Asks e p ∧ k.HasLabel sure e p ∧ .labelled e ∈ queue) ∨
      c.Obeyed (k.HasLabel sure)
  finished : ∀ {i c}, k.retired.contains i = true → k.constraints[i]? = some c → k.Finished c

theorem Drawn.requeue {ds : List Datapoint} {more : List Pending} (h : k.Drawn ds queue)
    (hsub : queue ⊆ more) : k.Drawn ds more where
  inherited := fun he => (h.inherited he).imp_left (hsub ·)
  forced := fun hc hcounts => by
    rcases h.forced hc hcounts with hcheck | ⟨e, p, he, hlabel, hmem⟩ | hobeyed
    · exact .inl (hsub hcheck)
    · exact .inr (.inl ⟨e, p, he, hlabel, hsub hmem⟩)
    · exact .inr (.inr hobeyed)
  finished := h.finished

theorem Advances.finished (h : Advances s s') {c : Constraint} (hc : s.1.Finished c) :
    s'.1.Finished c := by
  rcases hc with ⟨t, ht, htrue⟩ | ⟨x, hx, hfalse⟩
  · exact .inl ⟨t, ht, h.keeps htrue⟩
  · exact .inr ⟨x, hx, h.keeps hfalse⟩

theorem Advances.append (h : Advances s s') (owed : List Pending) :
    Advances (s.1, owed ++ s.2) (s'.1, owed ++ s'.2) where
  constraints_eq := h.constraints_eq
  retired_eq := h.retired_eq
  points_eq := h.points_eq
  queue_subset := fun _ hmem =>
    List.mem_append.2 ((List.mem_append.1 hmem).imp_right (h.queue_subset ·))
  keeps := h.keeps
  announced := fun hd => (h.announced hd).imp_right (List.mem_append_right _)

theorem Drawn.advance {ds : List Datapoint} (h : s.1.Drawn ds s.2) (hadvances : Advances s s') :
    s'.1.Drawn ds s'.2 where
  inherited := fun {sure e p} he => by
    rcases hadvances.announced he with hold | hmem
    · rcases h.inherited hold with hmem | hall
      · exact .inl (hadvances.queue_subset hmem)
      · exact .inr fun d hd hinherits => hadvances.keeps (hall d hd hinherits)
    · exact .inl hmem
  forced := fun {sure i c} hc hcounts => by
    rw [hadvances.constraints_eq] at hc
    rcases h.forced hc hcounts with hcheck | ⟨e, p, he, hlabel, hmem⟩ | hobeyed
    · exact .inl (hadvances.queue_subset hcheck)
    · exact .inr (.inl ⟨e, p, he, hadvances.keeps hlabel, hadvances.queue_subset hmem⟩)
    · -- a premise is new and announced, or all premises were there before
      by_cases hnew : ∃ e p, c.Asks e p ∧ s'.1.HasLabel sure e p ∧ .labelled e ∈ s'.2
      · exact .inr (.inl hnew)
      · refine .inr (.inr fun d p hforced => hadvances.keeps (hobeyed d p ?_))
        refine hforced.imp fun e q he hlabel => (hadvances.announced hlabel).resolve_right ?_
        exact fun hmem => hnew ⟨e, q, he, hlabel, hmem⟩
  finished := fun {i c} hi hc => by
    rw [hadvances.retired_eq] at hi
    rw [hadvances.constraints_eq] at hc
    exact hadvances.finished (h.finished hi hc)

theorem Drawn.of_check {ds : List Datapoint} {i : Nat} (h : k.Drawn ds (.check i :: queue))
    (hobeyed : ∀ {sure c}, k.constraints[i]? = some c → (sure = true → c.isAssumed = false) →
      c.Obeyed (k.HasLabel sure)) : k.Drawn ds queue where
  inherited := fun he => (h.inherited he).imp_left fun hmem =>
    (List.mem_cons.1 hmem).resolve_left (by simp)
  forced := fun {sure j c} hc hcounts => by
    rcases h.forced hc hcounts with hcheck | ⟨e, p, he, hlabel, hmem⟩ | hdone
    · rcases List.mem_cons.1 hcheck with heq | hcheck
      · cases heq
        exact .inr (.inr (hobeyed hc hcounts))
      · exact .inl hcheck
    · exact .inr (.inl ⟨e, p, he, hlabel, (List.mem_cons.1 hmem).resolve_left (by simp)⟩)
    · exact .inr (.inr hdone)
  finished := h.finished

theorem Drawn.of_labelled {ds : List Datapoint} (h : k.Drawn ds (.labelled d :: queue))
    (hspread : ∀ {sure p}, k.HasLabel sure d p → ∀ e ∈ ds, e.inherits p d = true →
      k.HasLabel sure e p)
    (hwatched : ∀ {sure p i c}, k.HasLabel sure d p → k.constraints[i]? = some c → c.Asks d p →
      .check i ∈ queue) : k.Drawn ds queue where
  inherited := fun he => by
    rcases h.inherited he with hmem | hall
    · rcases List.mem_cons.1 hmem with heq | hmem
      · cases heq
        exact .inr (hspread he)
      · exact .inl hmem
    · exact .inr hall
  forced := fun hc hcounts => by
    rcases h.forced hc hcounts with hcheck | ⟨e, p, he, hlabel, hmem⟩ | hdone
    · exact .inl ((List.mem_cons.1 hcheck).resolve_left (by simp))
    · rcases List.mem_cons.1 hmem with heq | hmem
      · cases heq
        exact .inl (hwatched hlabel hc he)
      · exact .inr (.inl ⟨e, p, he, hlabel, hmem⟩)
    · exact .inr (.inr hdone)
  finished := h.finished

/-! ## One step of deduction -/

theorem workOut_labelled (hl : k.label? d = some l) (hd : d ∈ k.datapoints)
    (h : k.workOut (.labelled d) queue = .ok s) :
    ∃ watched related, spread d l.polarity l.universal related (k, queue ++ watched) = .ok s ∧
      (∀ i c, k.constraints[i]? = some c → c.Asks d l.polarity → .check i ∈ watched) ∧
      ∀ e, e ∈ related ↔ e ∈ k.datapoints ∧ e.inherits l.polarity d = true ∧ e ≠ d := by
  rw [workOut, hl] at h
  have hids : ∀ {i c} {p : Constraint → Bool}, k.constraints[i]? = some c → p c = true →
      i ∈ k.idsWhere p := by
    intro i c p hc hp
    refine List.mem_filter.2 ⟨List.mem_range.2 (Array.getElem?_eq_some_iff.1 hc).1, ?_⟩
    rw [hc, Option.any_some, hp]
  cases hpolarity : l.polarity with
  | true =>
    simp only [hpolarity, if_true] at h
    refine ⟨_, _, h, fun i c hc hasks => ?_, fun e => mem_subsetsOf_iff.trans (and_iff_right hd)⟩
    exact List.mem_map_of_mem (hids hc (List.contains_iff_mem.2 hasks))
  | false =>
    simp only [hpolarity, Bool.false_eq_true, if_false] at h
    refine ⟨_, _, h, fun i c hc hasks => ?_, fun e => mem_supersetsOf_iff.trans (and_iff_right hd)⟩
    exact List.mem_map_of_mem (hids hc (decide_eq_true hasks))

theorem advances_enqueue (more : List Pending) : Advances (k, queue) (k, queue ++ more) :=
  ⟨rfl, rfl, rfl, List.subset_append_left _ _, id, .inl⟩

theorem Drawn.workOut {p : Pending} (hregistered : ∀ d l, k.label? d = some l → d ∈ k.datapoints)
    (h : k.Drawn k.datapoints (p :: queue)) (hstep : k.workOut p queue = .ok s) :
    s.1.Drawn s.1.datapoints s.2 := by
  cases p with
  | check i =>
    have hadvances := advances_check hstep
    have hdrawn : s.1.Drawn k.datapoints (.check i :: s.2) := h.advance (hadvances.append [.check i])
    rw [hadvances.datapoints_eq]
    refine hdrawn.of_check fun hc hcounts => ?_
    rw [hadvances.constraints_eq] at hc
    exact obeyed_of_check hc (fun hi => h.finished hi hc) hcounts hstep
  | labelled d =>
    cases hl : k.label? d with
    | none =>
      rw [Knowledge.workOut, hl] at hstep
      cases hstep
      have hnone : ∀ {sure p}, ¬k.HasLabel sure d p := by
        intro sure p hlabel
        obtain ⟨l, hl', -⟩ := hlabel
        cases hl.symm.trans hl'
      exact h.of_labelled (fun hlabel => absurd hlabel hnone) fun hlabel => absurd hlabel hnone
    | some l =>
      obtain ⟨watched, related, hspread, hwatched, hrelated⟩ :=
        workOut_labelled hl (hregistered d l hl) hstep
      obtain ⟨hadvances, hlabels⟩ := hasLabel_spread hspread
      have hall := (advances_enqueue watched).trans hadvances
      have hdrawn : s.1.Drawn k.datapoints (.labelled d :: s.2) :=
        h.advance (hall.append [.labelled d])
      -- the datapoint keeps the label that it spreads
      have hown : ∀ {sure p}, s.1.HasLabel sure d p →
          l.polarity = p ∧ (sure = true → l.universal = true) := by
        intro sure p hlabel
        rcases hlabels.1 hlabel with ⟨l', hl', hown⟩ | ⟨-, hown⟩
        · cases hl.symm.trans hl'
          exact hown
        · exact hown
      rw [hall.datapoints_eq]
      refine hdrawn.of_labelled (fun hlabel e he hinherits => ?_) fun hlabel hc hasks => ?_
      · obtain ⟨rfl, huniversal⟩ := hown hlabel
        by_cases heq : e = d
        · exact heq ▸ hlabel
        · exact hlabels.2 (.inr ⟨(hrelated e).2 ⟨he, hinherits, heq⟩, rfl, huniversal⟩)
      · obtain ⟨rfl, -⟩ := hown hlabel
        rw [hall.constraints_eq] at hc
        exact hadvances.queue_subset (List.mem_append_right _ (hwatched _ _ hc hasks))

/-! ## Nothing else is drawn -/

section Within

variable {cs : Constraint → Prop} {points : Datapoint → Prop} {L : Datapoint → Bool → Prop}

structure Within (k : Knowledge) (sure : Bool) (cs : Constraint → Prop) (points : Datapoint → Prop)
    (L : Datapoint → Bool → Prop) : Prop where
  constraints : ∀ c, k.Counts sure c → cs c
  datapoints : ∀ d ∈ k.datapoints, points d
  labels : ∀ d p, k.HasLabel sure d p → L d p

theorem Within.workOut {p : Pending} (hL : ∀ d p, Follows cs points L d p → L d p)
    (hregistered : ∀ d l, k.label? d = some l → d ∈ k.datapoints)
    (h : k.Within sure cs points L) (hstep : k.workOut p queue = .ok s) :
    s.1.Within sure cs points L := by
  have hkept : Advances (k, queue) s → (∀ d p, s.1.HasLabel sure d p → k.HasLabel sure d p ∨ L d p) →
      s.1.Within sure cs points L := by
    intro hadvances hlabels
    refine ⟨fun c hc => h.constraints c ?_, fun d hd => h.datapoints d ?_, fun d p hlabel => ?_⟩
    · rwa [Counts, ← hadvances.constraints_eq]
    · rwa [← hadvances.datapoints_eq]
    · exact (hlabels d p hlabel).elim (h.labels d p) id
  cases p with
  | check i =>
    refine hkept (advances_check hstep) fun e q hlabel => ?_
    cases hc : k.constraints[i]? with
    | none =>
      rw [Knowledge.workOut, check, hc] at hstep
      cases hstep
      exact .inl hlabel
    | some c =>
      rcases check_eq_setLabel hc hstep with ⟨rfl, -⟩ | ⟨d, l, hset, hlevel⟩
      · exact .inl hlabel
      · refine ((hasLabel_setLabel hset).1 hlabel).imp_right fun hnew => ?_
        obtain ⟨rfl, rfl, huniversal⟩ := hnew
        obtain ⟨hcounts, hforces⟩ := (hlevel sure).1 huniversal
        have hmem : k.Counts sure c := ⟨Array.mem_of_getElem? hc, hcounts⟩
        exact hL _ _ (.forced (h.constraints c hmem) (hforces.imp fun x r _ => h.labels x r))
  | labelled d =>
    cases hl : k.label? d with
    | none =>
      rw [Knowledge.workOut, hl] at hstep
      cases hstep
      exact h
    | some l =>
      obtain ⟨watched, related, hspread, -, hrelated⟩ :=
        workOut_labelled hl (hregistered d l hl) hstep
      obtain ⟨hadvances, hlabels⟩ := hasLabel_spread hspread
      refine hkept ((advances_enqueue watched).trans hadvances) fun e q hlabel => ?_
      refine (hlabels.1 hlabel).imp_right fun hnew => ?_
      obtain ⟨he, rfl, huniversal⟩ := hnew
      obtain ⟨hmem, hinherits, -⟩ := (hrelated e).1 he
      have hd : L d l.polarity := h.labels d _ ⟨l, hl, rfl, huniversal⟩
      exact hL _ _ (.inherited (h.datapoints e hmem) hinherits hd)

end Within

/-! ## New datapoints -/

theorem hasLabel_addPoint (hd : d ∉ k.datapoints)
    (hregistered : ∀ d l, k.label? d = some l → d ∈ k.datapoints)
    (h : inherit d (k.relatives d) ({ k with points := k.points.insert d }, queue) = .ok s) :
    s.1.HasLabel sure e p ↔ k.HasLabel sure e p ∨
      e = d ∧ ∃ f, d.inherits p f = true ∧ k.HasLabel sure f p := by
  rw [(hasLabel_inherit h).2]
  refine or_congr_right (and_congr_right fun _ => ?_)
  constructor
  · intro htaken
    obtain ⟨f, l, hmem, htakes, hp, huniversal⟩ := htaken
    obtain ⟨hl, -, -, hrelated⟩ := mem_relatives.1 hmem
    refine ⟨f, ?_, l, hl, hp, huniversal⟩
    cases p with
    | true => exact htakes.symm.trans hp
    | false => exact hrelated.resolve_left (by simp [← htakes, hp])
  · intro hright
    obtain ⟨f, hinherits, l, hl, hp, huniversal⟩ := hright
    have hf := hregistered f l hl
    have hne : f ≠ d := fun heq => hd (heq ▸ hf)
    cases p with
    | true =>
      have hsub : d.subset f = true := hinherits
      exact ⟨f, l, mem_relatives.2 ⟨hl, hf, hne, .inl hsub⟩, hp.trans hsub.symm, hp, huniversal⟩
    | false =>
      have hsub : f.subset d = true := hinherits
      have hproper : d.subset f = false := Bool.eq_false_iff.2 fun hsub' =>
        hne (Datapoint.subset_antisymm hsub hsub')
      exact ⟨f, l, mem_relatives.2 ⟨hl, hf, hne, .inr hsub⟩, hp.trans hproper.symm, hp, huniversal⟩

theorem Drawn.addPoint {owed : List Pending} (hd : d ∉ k.datapoints)
    (hregistered : ∀ d l, k.label? d = some l → d ∈ k.datapoints)
    (h : k.Drawn k.datapoints (owed ++ queue))
    (hrun : inherit d (k.relatives d) ({ k with points := k.points.insert d }, queue) = .ok s) :
    s.1.Drawn s.1.datapoints (owed ++ s.2) := by
  have hadvances := (hasLabel_inherit hrun).1
  have hsame : Drawn { k with points := k.points.insert d } k.datapoints (owed ++ queue) :=
    ⟨h.inherited, h.forced, h.finished⟩
  have hold : s.1.Drawn k.datapoints (owed ++ s.2) := hsame.advance (hadvances.append owed)
  refine ⟨fun {sure e p} he => ?_, hold.forced, hold.finished⟩
  refine (hold.inherited he).imp_right fun hall x hx hinherits => ?_
  rw [hadvances.datapoints_eq, mem_datapoints_insert] at hx
  rcases hx with rfl | hx
  · -- the other was labelled when the new datapoint took over, or is the new datapoint
    rcases (hasLabel_addPoint hd hregistered hrun).1 he with hbefore | ⟨rfl, -⟩
    · exact (hasLabel_addPoint hd hregistered hrun).2 (.inr ⟨rfl, e, hinherits, hbefore⟩)
    · exact he
  · exact hall x hx hinherits

theorem Within.addPoint {cs : Constraint → Prop} {points : Datapoint → Prop}
    {L : Datapoint → Bool → Prop} (hL : ∀ d p, Follows cs points L d p → L d p)
    (hd : d ∉ k.datapoints) (hpoint : points d)
    (hregistered : ∀ d l, k.label? d = some l → d ∈ k.datapoints)
    (h : k.Within sure cs points L)
    (hrun : inherit d (k.relatives d) ({ k with points := k.points.insert d }, queue) = .ok s) :
    s.1.Within sure cs points L := by
  have hadvances := (hasLabel_inherit hrun).1
  refine ⟨fun c hc => h.constraints c ?_, fun e he => ?_, fun e p hlabel => ?_⟩
  · rwa [Counts, hadvances.constraints_eq] at hc
  · rw [hadvances.datapoints_eq, mem_datapoints_insert] at he
    rcases he with rfl | he
    · exact hpoint
    · exact h.datapoints e he
  · rcases (hasLabel_addPoint hd hregistered hrun).1 hlabel with hold | ⟨rfl, f, hinherits, hf⟩
    · exact h.labels e p hold
    · exact hL _ _ (.inherited hpoint hinherits (h.labels f p hf))

/-- Registering keeps what taking over labels keeps. The common parts that are registered next have
the property that datapoints are required to have. -/
theorem register_induction {P : Knowledge × List Pending → Prop} {S : Datapoint → Prop}
    (hmeet : ∀ d e m, S d → S e → d.meet? e = some m → S m)
    (hall : ∀ s, P s → ∀ e ∈ s.1.datapoints, S e)
    (hstep : ∀ {d s s'}, S d → d ∉ s.1.datapoints → P s →
      inherit d (s.1.relatives d) ({ s.1 with points := s.1.points.insert d }, s.2) = .ok s' → P s')
    {fuel : Nat} (hd : S d) (h : P s) (hrun : register fuel d s = .ok s') : P s' := by
  induction fuel generalizing d s s' with
  | zero =>
    cases hrun
    exact h
  | succ fuel ih =>
    rw [register_succ] at hrun
    split at hrun
    · cases hrun
      exact h
    · next hnew =>
      obtain ⟨s₁, hinherit, hrun⟩ := bind_eq_ok.1 hrun
      have hfresh : d ∉ s.1.datapoints := fun hmem => hnew (PointIndex.contains_iff_mem_toList.2 hmem)
      refine of_foldlM_eq_ok ?_ (hstep hd hfresh h hinherit) hrun
      intro x m hm x' hx hregister
      obtain ⟨e, he, -, -, hmeets⟩ := mem_commonParts.1 (List.mem_reverse.1 hm)
      exact ih (hmeet d e m hd (hall s h e he) hmeets) hx hregister

theorem registerAll_induction {P : Knowledge × List Pending → Prop} {S : Datapoint → Prop}
    (hmeet : ∀ d e m, S d → S e → d.meet? e = some m → S m)
    (hall : ∀ s, P s → ∀ e ∈ s.1.datapoints, S e)
    (hstep : ∀ {d s s'}, S d → d ∉ s.1.datapoints → P s →
      inherit d (s.1.relatives d) ({ s.1 with points := s.1.points.insert d }, s.2) = .ok s' → P s')
    {ds : List Datapoint} (hds : ∀ d ∈ ds, S d) (h : P s) (hrun : registerAll ds s = .ok s') :
    P s' := by
  induction ds generalizing s with
  | nil =>
    cases hrun
    exact h
  | cons d ds ih =>
    obtain ⟨hd, hds⟩ := List.forall_mem_cons.1 hds
    rw [registerAll] at hrun
    split at hrun
    · next s₁ hregister =>
      exact ih hds (register_induction hmeet hall hstep hd h hregister) hrun
    · cases hrun

/-! ## Any history -/

theorem Drawn.push (h : k.Drawn k.datapoints [])
    (hretired : ∀ i, k.retired.contains i = true → i < k.size) (c : Constraint) :
    Drawn { k with constraints := k.constraints.push c } k.datapoints [.check k.size] := by
  have hget : ∀ {i c'}, (k.constraints.push c)[i]? = some c' →
      i = k.size ∨ k.constraints[i]? = some c' := by
    intro i c' hc'
    rw [Array.getElem?_push] at hc'
    split at hc'
    · next heq => exact .inl heq
    · exact .inr hc'
  have hall := h.requeue (List.nil_subset [.check k.size])
  refine ⟨hall.inherited, fun hc' hcounts => ?_, fun {i c'} hi hc' => ?_⟩
  · rcases hget hc' with rfl | hc'
    · exact .inl List.mem_cons_self
    · exact hall.forced hc' hcounts
  · rcases hget hc' with rfl | hc'
    · exact absurd (hretired _ hi) (Nat.lt_irrefl _)
    · exact h.finished hi hc'

theorem Drawn.insert (hk : k.Saturated) (h : k.Drawn k.datapoints [])
    (hinsert : k.insert c = .ok (added, k')) : k'.Drawn k'.datapoints [] := by
  rcases insert_eq_ok hinsert with ⟨-, rfl, -⟩ | ⟨-, -, next, queue, hregister, hpropagate⟩
  · exact h
  · obtain ⟨htracked, hmentioned, -⟩ := hk.registerAll hregister
    have hregistered : next.Tracked ([.check k.size] ++ queue) ∧
        next.Drawn next.datapoints ([.check k.size] ++ queue) := by
      refine registerAll_induction (S := fun _ => True) (P := fun x =>
        x.1.Tracked ([.check k.size] ++ x.2) ∧ x.1.Drawn x.1.datapoints ([.check k.size] ++ x.2))
        (fun _ _ _ _ _ _ => trivial) (fun _ _ _ _ => trivial) ?_ (fun _ _ => trivial)
        ⟨hk.tracked.push c, h.push hk.tracked.retired_lt c⟩ hregister
      intro d x x' _ hd hx hinherit
      obtain ⟨htracked, hdrawn⟩ := hx
      exact ⟨(htracked.addPoint hd hinherit).1, hdrawn.addPoint hd htracked.labelled_mem hinherit⟩
    refine (htracked.propagate_induction (P := fun x queue => x.Drawn x.datapoints queue)
      (fun hx _ hdrawn => hdrawn.workOut hx.labelled_mem) hmentioned ?_ (potential_le_fuel htracked)
      hpropagate).2
    exact hregistered.2.requeue (by simp)

theorem Within.insert {cs : Constraint → Prop} {points : Datapoint → Prop}
    {L : Datapoint → Bool → Prop} (hL : ∀ d p, Follows cs points L d p → L d p)
    (hmeet : ∀ d e m, points d → points e → d.meet? e = some m → points m)
    (hc : (sure = true → c.isAssumed = false) → cs c) (hds : ∀ d ∈ c.datapoints, points d)
    (hk : k.Saturated) (h : k.Within sure cs points L) (hinsert : k.insert c = .ok (added, k')) :
    k'.Within sure cs points L := by
  rcases insert_eq_ok hinsert with ⟨-, rfl, -⟩ | ⟨-, -, next, queue, hregister, hpropagate⟩
  · exact h
  · obtain ⟨htracked, hmentioned, -⟩ := hk.registerAll hregister
    have hpush : Within { k with constraints := k.constraints.push c } sure cs points L := by
      refine ⟨fun c' hc' => ?_, h.datapoints, h.labels⟩
      obtain ⟨hmem, hcounts⟩ := hc'
      rcases Array.mem_push.1 hmem with hmem | rfl
      · exact h.constraints c' ⟨hmem, hcounts⟩
      · exact hc hcounts
    have hregistered : next.Tracked ([.check k.size] ++ queue) ∧ next.Within sure cs points L := by
      refine registerAll_induction (P := fun x =>
        x.1.Tracked ([.check k.size] ++ x.2) ∧ x.1.Within sure cs points L)
        hmeet (fun x hx => hx.2.datapoints) ?_ hds ⟨hk.tracked.push c, hpush⟩ hregister
      intro d x x' hpoint hd hx hinherit
      obtain ⟨htracked, hwithin⟩ := hx
      exact ⟨(htracked.addPoint hd hinherit).1,
        hwithin.addPoint hL hd hpoint htracked.labelled_mem hinherit⟩
    exact (htracked.propagate_induction (P := fun x _ => x.Within sure cs points L)
      (fun hx _ hwithin => hwithin.workOut hL hx.labelled_mem) hmentioned hregistered.2
      (potential_le_fuel htracked) hpropagate).2

theorem finished_of_isSettled (h : k.isSettled c = true) : k.Finished c := by
  rw [isSettled, Bool.or_eq_true, Option.any_eq_true, List.any_eq_true] at h
  simp only [isDecided_iff_hasLabel] at h
  exact h

theorem Reachable.drawn (h : k.Reachable) : k.Drawn k.datapoints [] := by
  induction h with
  | empty =>
    refine ⟨fun he => ?_, fun hc => ?_, fun hi => ?_⟩
    · obtain ⟨l, hl, -⟩ := he
      cases hl
    · simp at hc
    · cases hi
  | insert hk hinsert ih => exact ih.insert hk.saturated hinsert
  | @simplify k _ ih =>
    refine ⟨ih.inherited, ih.forced, fun {i c} hi hc => ?_⟩
    rcases mem_retired_simplify hi with hi | ⟨-, hsettled⟩
    · exact ih.finished hi hc
    · have hc : k.constraints[i]? = some c := hc
      rw [hc, Option.any_some] at hsettled
      exact finished_of_isSettled hsettled

theorem Reachable.within {cs : Constraint → Prop} {points : Datapoint → Prop}
    {L : Datapoint → Bool → Prop} (hL : ∀ d p, Follows cs points L d p → L d p)
    (hmeet : ∀ d e m, points d → points e → d.meet? e = some m → points m) (h : k.Reachable)
    (hcs : ∀ c, k.Counts sure c → cs c) (hpoints : ∀ d, k.Mentions d → points d) :
    k.Within sure cs points L := by
  induction h with
  | empty =>
    refine ⟨hcs, fun d hd => ?_, fun d p hlabel => ?_⟩
    · cases hd
    · obtain ⟨l, hl, -⟩ := hlabel
      cases hl
  | insert hk hinsert ih =>
    have hmem := (hk.saturated.insert hinsert).2
    have hold := ih (fun c' hc' => hcs c' ⟨(hmem c').2 (.inl hc'.1), hc'.2⟩) fun d hd =>
      hpoints d (hd.imp fun c' hc' => ⟨(hmem c').2 (.inl hc'.1), hc'.2⟩)
    have hnew := (hmem _).2 (.inr rfl)
    exact hold.insert hL hmeet (fun hcounts => hcs _ ⟨hnew, hcounts⟩)
      (fun d hd => hpoints d ⟨_, hnew, hd⟩) hk.saturated hinsert
  | simplify _ ih =>
    have hold := ih hcs hpoints
    exact ⟨hcs, hold.datapoints, hold.labels⟩

theorem Reachable.obeyed (h : k.Reachable) (hc : k.Counts sure c) :
    c.Obeyed (k.HasLabel sure) := by
  obtain ⟨i, hi⟩ := Array.mem_iff_getElem?.1 hc.1
  rcases h.drawn.forced hi hc.2 with hmem | ⟨e, q, -, -, hmem⟩ | hobeyed
  · cases hmem
  · cases hmem
  · exact hobeyed

/-- The labels at a level are the least that contain what follows from them. -/
theorem Reachable.hasLabel_eq_lfp (h : k.Reachable) (sure : Bool) :
    k.HasLabel sure = (rules (k.Counts sure) (· ∈ k.datapoints)).lfp := by
  apply le_antisymm
  · have hclosed := (rules (k.Counts sure) (· ∈ k.datapoints)).map_lfp.le
    refine (Reachable.within hclosed ?_ h (fun c => id) fun d hd => ?_).labels
    · simp only [h.mem_datapoints_iff]
      exact fun d e m hd he => .meet hd he
    · exact h.mem_datapoints_iff.2 (.given hd)
  · refine OrderHom.lfp_le _ fun d p hfollows => ?_
    cases hfollows with
    | forced hc hforces => exact h.obeyed hc d p hforces
    | inherited hd hinherits he =>
      exact (h.drawn.inherited he).resolve_left List.not_mem_nil d hd hinherits

theorem Reachable.hasLabel_mono (h : k.Reachable) (h' : k'.Reachable)
    (hsub : ∀ c ∈ k.constraints, c ∈ k'.constraints) (hd : k.HasLabel sure d p) :
    k'.HasLabel sure d p := by
  have hpoints : ∀ d ∈ k.datapoints, d ∈ k'.datapoints := by
    intro d hd
    rw [h.mem_datapoints_iff] at hd
    rw [h'.mem_datapoints_iff]
    exact hd.mono fun e he => he.imp fun c hc => ⟨hsub c hc.1, hc.2⟩
  rw [h.hasLabel_eq_lfp] at hd
  rw [h'.hasLabel_eq_lfp]
  have hrules : rules (k.Counts sure) (· ∈ k.datapoints) ≤
      rules (k'.Counts sure) (· ∈ k'.datapoints) := by
    intro L d p hfollows
    cases hfollows with
    | forced hc hforces => exact .forced ⟨hsub _ hc.1, hc.2⟩ hforces
    | inherited hd hinherits he => exact .inherited (hpoints _ hd) hinherits he
  exact OrderHom.lfp.monotone hrules d p hd

/-- What is decided about a datapoint: its polarity, and whether this needs no guesses. -/
def decision? (k : Knowledge) (d : Datapoint) : Option (Bool × Bool) :=
  (k.label? d).map fun l => (l.polarity, l.universal)

theorem exists_decision?_iff : (∃ u, k.decision? d = some (p, u)) ↔ k.HasLabel false d p := by
  simp only [decision?, Option.map_eq_some_iff, Prod.mk.injEq, hasLabel_false]
  constructor
  · intro hdecided
    obtain ⟨u, l, hl, hp, -⟩ := hdecided
    exact ⟨l, hl, hp⟩
  · intro hlabel
    obtain ⟨l, hl, hp⟩ := hlabel
    exact ⟨l.universal, l, hl, hp, rfl⟩

theorem decision?_universal_iff : k.decision? d = some (p, true) ↔ k.HasLabel true d p := by
  simp [decision?, HasLabel]

theorem decision?_eq_of_hasLabel (h : ∀ sure p, k.HasLabel sure d p ↔ k'.HasLabel sure d p) :
    k.decision? d = k'.decision? d := by
  have hone : ∀ {k k' : Knowledge} {r}, (∀ sure p, k.HasLabel sure d p ↔ k'.HasLabel sure d p) →
      k.decision? d = some r → k'.decision? d = some r := by
    intro k k' r hiff hk
    obtain ⟨p, u⟩ := r
    obtain ⟨u', hk'⟩ := exists_decision?_iff.2 ((hiff false p).1 (exists_decision?_iff.1 ⟨u, hk⟩))
    have huniversal : k.decision? d = some (p, true) ↔ k'.decision? d = some (p, true) := by
      rw [decision?_universal_iff, hiff, decision?_universal_iff]
    simp only [hk, hk', Option.some.injEq, Prod.mk.injEq, true_and, ← Bool.eq_iff_iff] at huniversal
    rw [hk', huniversal]
  ext r
  exact ⟨hone h, hone fun sure p => (h sure p).symm⟩

/-- Knowledge depends on the set of constraints only. -/
theorem Reachable.decision?_congr (h : k.Reachable) (h' : k'.Reachable)
    (hsame : ∀ c, c ∈ k.constraints ↔ c ∈ k'.constraints) :
    k.points = k'.points ∧ ∀ d, k.decision? d = k'.decision? d := by
  have hmentions : k.Mentions = k'.Mentions := by
    funext d
    simp only [Mentions, hsame]
  have hpoints : (· ∈ k.datapoints) = (· ∈ k'.datapoints) := by
    funext d
    rw [h.mem_datapoints_iff, h'.mem_datapoints_iff, hmentions]
  have hlabels : ∀ sure, k.HasLabel sure = k'.HasLabel sure := by
    intro sure
    have hcounts : k.Counts sure = k'.Counts sure := by
      funext c
      simp only [Counts, hsame]
    rw [h.hasLabel_eq_lfp, h'.hasLabel_eq_lfp, hcounts, hpoints]
  refine ⟨PointIndex.ext_toList fun d => iff_of_eq (congrFun hpoints d), fun d => ?_⟩
  apply decision?_eq_of_hasLabel
  intro sure p
  rw [hlabels]

theorem Reachable.insertAll {cs : List Constraint} {n : Nat} (h : k.Reachable)
    (hrun : k.insertAll cs = (.ok n, k')) :
    k'.Reachable ∧ ∀ c, c ∈ k'.constraints ↔ c ∈ k.constraints ∨ c ∈ cs := by
  induction cs generalizing k n with
  | nil =>
    cases hrun
    exact ⟨h, by simp⟩
  | cons c cs ih =>
    rw [Knowledge.insertAll] at hrun
    split at hrun
    · cases hrun
    · next added next hinsert =>
      rw [Prod.mk.injEq, map_eq_ok] at hrun
      obtain ⟨⟨m, hm, -⟩, hlast⟩ := hrun
      obtain ⟨hreachable, hmem⟩ := ih (h.insert hinsert) (Prod.ext hm hlast)
      refine ⟨hreachable, fun c' => ?_⟩
      rw [hmem, (h.saturated.insert hinsert).2, List.mem_cons, or_assoc]

/-- What is known after constraints were added in a row, up to a contradiction or to the end. -/
theorem Reachable.insertAll_snd (h : k.Reachable) (cs : List Constraint) :
    (k.insertAll cs).2.Reachable ∧
      ∀ c ∈ (k.insertAll cs).2.constraints, c ∈ k.constraints ∨ c ∈ cs := by
  induction cs generalizing k with
  | nil => exact ⟨h, fun c => .inl⟩
  | cons c cs ih =>
    rw [Knowledge.insertAll]
    split
    · exact ⟨h, fun c' => .inl⟩
    · next added next hinsert =>
      obtain ⟨hreachable, hmem⟩ := ih (h.insert hinsert)
      refine ⟨hreachable, fun c' hc' => ?_⟩
      rcases hmem c' hc' with hc' | hc'
      · rcases ((h.saturated.insert hinsert).2 c').1 hc' with hc' | rfl
        · exact .inl hc'
        · exact .inr List.mem_cons_self
      · exact .inr (List.mem_cons_of_mem _ hc')

theorem Reachable.assume {cs : List Constraint} (h : k.Reachable) (hrun : k.assume cs = .ok k') :
    k'.Reachable ∧ ∀ c, c ∈ k'.constraints ↔ c ∈ k.constraints ∨ c ∈ cs := by
  induction cs generalizing k with
  | nil =>
    cases hrun
    exact ⟨h, by simp⟩
  | cons c cs ih =>
    rw [Knowledge.assume] at hrun
    split at hrun
    · next added next hinsert =>
      obtain ⟨hreachable, hmem⟩ := ih (h.insert hinsert) hrun
      refine ⟨hreachable, fun c' => ?_⟩
      rw [hmem, (h.saturated.insert hinsert).2, List.mem_cons, or_assoc]
    · cases hrun

/-- Constraints in a row are a contradiction where they are one as guesses. -/
theorem insertAll_eq_error_iff {cs : List Constraint} {e : Contradiction} :
    (k.insertAll cs).1 = .error e ↔ k.assume cs = .error e := by
  induction cs generalizing k with
  | nil => simp [Knowledge.insertAll, Knowledge.assume]
  | cons c cs ih =>
    rw [Knowledge.insertAll, Knowledge.assume]
    cases k.insert c with
    | error e => simp
    | ok r =>
      rw [← ih]
      cases hrest : (r.2.insertAll cs).1 with
      | error e => simp [hrest, Except.map]
      | ok m => simp [hrest, Except.map]

/-- Constraints that can be added in one order can be added in any other. -/
theorem insertAll_of_subset {cs cs' : List Constraint} {n : Nat}
    (hrun : insertAll {} cs = (.ok n, k)) (hsub : cs' ⊆ cs) :
    ∃ n' k', insertAll {} cs' = (.ok n', k') := by
  obtain ⟨hreachable, hmem⟩ := Reachable.empty.insertAll hrun
  obtain ⟨T, hT, hmeets⟩ := hreachable.saturated.exists_model
  have hempty : Respects {} T := Reachable.empty.respects hT (by simp)
  obtain ⟨n', k', hrun', -⟩ :=
    hempty.insertAll fun c hc => hmeets c ((hmem c).2 (.inr (hsub hc)))
  exact ⟨n', k', hrun'⟩

end Knowledge

open Knowledge

/-- Constraints that are added in two orders contradict each other in both, or what is decided in the
end is the same: the labels are the least fixpoint of the rules over all constraints, and the universal
labels that over the constraints which are no guesses. -/
theorem labels_eq_least_fixpoint (cs cs' : List Constraint) (hsame : ∀ c, c ∈ cs ↔ c ∈ cs') :
    ((∃ e k, insertAll {} cs = (.error e, k)) ∧ ∃ e k, insertAll {} cs' = (.error e, k)) ∨
      ∃ n k n' k', insertAll {} cs = (.ok n, k) ∧ insertAll {} cs' = (.ok n', k') ∧
        k.datapoints = k'.datapoints ∧ (∀ d, k.decision? d = k'.decision? d) ∧
        (∀ d, d ∈ k.datapoints ↔ Datapoint.Generated (fun e => ∃ c ∈ cs, e ∈ c.datapoints) d) ∧
        (∀ d p, (∃ u, k.decision? d = some (p, u)) ↔
          (rules (· ∈ cs) (· ∈ k.datapoints)).lfp d p) ∧
        ∀ d p, k.decision? d = some (p, true) ↔
          (rules (fun c => c ∈ cs ∧ c.isAssumed = false) (· ∈ k.datapoints)).lfp d p := by
  rcases hrun : insertAll {} cs with ⟨e | n, k⟩
  · refine .inl ⟨⟨e, k, rfl⟩, ?_⟩
    rcases hrun' : insertAll {} cs' with ⟨e' | n', k'⟩
    · exact ⟨e', k', rfl⟩
    · obtain ⟨n, k₁, hok⟩ := insertAll_of_subset hrun' fun c => (hsame c).1
      cases hrun.symm.trans hok
  · obtain ⟨n', k', hrun'⟩ := insertAll_of_subset hrun fun c => (hsame c).2
    obtain ⟨hreachable, hmem⟩ := Reachable.empty.insertAll hrun
    obtain ⟨hreachable', hmem'⟩ := Reachable.empty.insertAll hrun'
    have hconstraints : ∀ c, c ∈ k.constraints ↔ c ∈ cs := fun c => by simp [hmem c]
    obtain ⟨hpoints, hdecisions⟩ := hreachable.decision?_congr hreachable' fun c => by
      simp [hmem c, hmem' c, hsame c]
    refine .inr ⟨n, k, n', k', rfl, hrun', by rw [datapoints, hpoints, datapoints], hdecisions,
      fun d => ?_, fun d p => ?_, fun d p => ?_⟩
    · rw [hreachable.mem_datapoints_iff]
      unfold Mentions
      simp only [hconstraints]
    · have hcounts : k.Counts false = (· ∈ cs) := by
        funext c
        simp [Counts, hconstraints]
      rw [← hcounts, ← hreachable.hasLabel_eq_lfp, exists_decision?_iff]
    · have hcounts : k.Counts true = fun c => c ∈ cs ∧ c.isAssumed = false := by
        funext c
        simp [Counts, hconstraints]
      rw [← hcounts, ← hreachable.hasLabel_eq_lfp, decision?_universal_iff]

/-- A state that is reached, and from it all states at another site. Of two more states a guess
excludes one, and with it the other, which is excluded without the guess too. -/
def reachedAndGuessed : List Constraint :=
  [⟨[], some ⟨0, .ofList [("x", .int 1)]⟩, .clause 0⟩,
    ⟨[⟨0, .ofList [("x", .int 1)]⟩], some ⟨1, ∅⟩, .clause 1⟩,
    .assumeFalse ⟨0, .ofList [("x", .int 5)]⟩,
    ⟨[⟨0, .ofList [("x", .int 7)]⟩], some ⟨0, .ofList [("x", .int 5)]⟩, .clause 2⟩,
    ⟨[⟨1, .ofList [("x", .int 1)]⟩, ⟨0, .ofList [("x", .int 7)]⟩], none, .clause 3⟩]

/-- Forwards and backwards the same is decided, and of the two states only one is excluded for
good. -/
theorem reachedAndGuessed_labels :
    ∃ n k n' k', insertAll {} reachedAndGuessed = (.ok n, k) ∧
      insertAll {} reachedAndGuessed.reverse = (.ok n', k') ∧
      (∀ d, k.decision? d = k'.decision? d) ∧
      (rules (fun c => c ∈ reachedAndGuessed ∧ c.isAssumed = false) (· ∈ k.datapoints)).lfp
        ⟨0, .ofList [("x", .int 7)]⟩ false ∧
      (rules (· ∈ reachedAndGuessed) (· ∈ k.datapoints)).lfp ⟨0, .ofList [("x", .int 5)]⟩ false ∧
      ¬(rules (fun c => c ∈ reachedAndGuessed ∧ c.isAssumed = false) (· ∈ k.datapoints)).lfp
        ⟨0, .ofList [("x", .int 5)]⟩ false := by
  have hrun : (insertAll {} reachedAndGuessed).1.isOk = true ∧
      (insertAll {} reachedAndGuessed).2.decision? ⟨0, .ofList [("x", .int 7)]⟩ =
        some (false, true) ∧
      (insertAll {} reachedAndGuessed).2.decision? ⟨0, .ofList [("x", .int 5)]⟩ =
        some (false, false) := by decide +kernel
  have hlabels := labels_eq_least_fixpoint reachedAndGuessed reachedAndGuessed.reverse (by simp)
  rcases hlabels with ⟨⟨e, k, herror⟩, -⟩ | ⟨n, k, n', k', hok, hok', -, hsame, -, hall, huniversal⟩
  · rw [herror] at hrun
    cases hrun.1
  · rw [hok] at hrun
    refine ⟨n, k, n', k', hok, hok', hsame, (huniversal _ _).1 hrun.2.1, (hall _ _).1 ⟨_, hrun.2.2⟩,
      fun h => ?_⟩
    cases hrun.2.2.symm.trans ((huniversal _ _).2 h)

end LoopInvariant
