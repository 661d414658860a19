import LoopInvariant.Proofs.Saturation
/-!
# Contradictions are found exactly

Every operation keeps account of what follows from the true labels, and there is fuel to work all of
it out. So knowledge that was built without a contradiction has a model, and adding to it fails
exactly when no model of the old constraints meets the new ones.
-/

namespace LoopInvariant

namespace Knowledge

variable {k k' : Knowledge} {d : Datapoint} {queue queue' : List Pending}

def Mentioned (k : Knowledge) : Prop :=
  ∀ c ∈ k.constraints, ∀ d ∈ c.datapoints, d ∈ k.datapoints

/-! ## Working out what waits -/

theorem source_mem_datapoints {c : Constraint} {s : Datapoint} (hs : s ∈ c.sources) :
    s ∈ c.datapoints :=
  List.mem_append_left _ hs

theorem target_mem_datapoints {c : Constraint} {t : Datapoint} (ht : c.target = some t) :
    t ∈ c.datapoints :=
  List.mem_append_right _ (by simp [ht])

/-- What checking a constraint can do: nothing, when it is retired or a source is open; give its
target a true label; or give an open source a false one. -/
theorem check_eq_ok {id : Nat} {c : Constraint} (hc : k.constraints[id]? = some c)
    {s : Knowledge × List Pending} (h : k.check id queue = .ok s) :
    (s = (k, queue) ∧ (k.retired.contains id = true ∨ ∃ x ∈ c.sources, k.isTrue x = false)) ∨
      (∃ t l, c.target = some t ∧ l.polarity = true ∧ k.setLabel t l queue = .ok s) ∨
      ∃ x l, x ∈ c.sources ∧ l.polarity = false ∧ k.setLabel x l queue = .ok s := by
  rw [check, hc] at h
  simp only at h
  split at h
  · next hretired =>
    cases h
    exact .inl ⟨rfl, .inl hretired⟩
  · have hopened : ∀ x ∈ (c.sources.filter fun x => !k.isTrue x).eraseDups,
        x ∈ c.sources ∧ k.isTrue x = false := fun x hx => mem_opened.1 hx
    generalize (c.sources.filter fun x => !k.isTrue x).eraseDups = opened at h hopened
    split at h
    · cases h
    · next t ht => exact .inr (.inl ⟨t, _, ht, rfl, h⟩)
    · next x _ => exact .inr (.inr ⟨x, _, (hopened x List.mem_cons_self).1, rfl, h⟩)
    · next x t _ =>
      have hx := hopened x List.mem_cons_self
      split at h
      · split at h
        · cases h
          exact .inl ⟨rfl, .inr ⟨x, hx⟩⟩
        · exact .inr (.inr ⟨x, _, hx.1, rfl, h⟩)
      · cases h
        exact .inl ⟨rfl, .inr ⟨x, hx⟩⟩
    · next hnone hsome _ _ =>
      cases h
      obtain ⟨x, hx⟩ := List.exists_mem_of_ne_nil _ fun hempty => by
        cases htarget : c.target with
        | none => exact hnone hempty htarget
        | some t => exact hsome t hempty htarget
      exact .inl ⟨rfl, .inr ⟨x, hopened x hx⟩⟩

theorem relabels_check (hmentioned : k.Mentioned) (htracked : k.Tracked queue') {id : Nat}
    {s : Knowledge × List Pending} (h : k.check id queue = .ok s) :
    ∃ new, s.2 = queue ++ new ∧ k.Relabels s.1 new ∧
      ∀ c, k.constraints[id]? = some c → s.1.Quiet c := by
  cases hc : k.constraints[id]? with
  | none =>
    rw [check, hc] at h
    cases h
    exact ⟨[], (List.append_nil _).symm, .refl k, by simp⟩
  | some c =>
    have hmem := hmentioned c (Array.mem_of_getElem? hc)
    simp only [Option.some.injEq, forall_eq']
    rcases check_eq_ok hc h with ⟨rfl, hreason⟩ | ⟨t, l, ht, hpolarity, hset⟩ |
      ⟨x, l, hx, hpolarity, hset⟩
    · refine ⟨[], (List.append_nil _).symm, .refl k, ?_⟩
      rcases hreason with hretired | hopen
      · exact (htracked.settled id c hretired hc).quiet
      · exact .inl hopen
    · obtain ⟨new, hqueue, hrelabels, l', hl', heq⟩ :=
        relabels_setLabel (hmem t (target_mem_datapoints ht)) hset
      exact ⟨new, hqueue, hrelabels, .inr ⟨t, ht, isTrue_iff.2 ⟨l', hl', heq.trans hpolarity⟩⟩⟩
    · obtain ⟨new, hqueue, hrelabels, l', hl', heq⟩ :=
        relabels_setLabel (hmem x (source_mem_datapoints hx)) hset
      have hfalse : s.1.isFalse x = true := isFalse_iff.2 ⟨l', hl', heq.trans hpolarity⟩
      exact ⟨new, hqueue, hrelabels, Settled.quiet (.inl ⟨x, hx, hfalse⟩)⟩

/-- What waits, and the labels still to come with the constraints each makes wait. -/
def potential (k : Knowledge) (queue : List Pending) : Nat :=
  queue.countP (fun p => !p.isLabel) +
    (queue.countP Pending.isLabel + k.slack) * (k.size + 1)

theorem potential_check (id : Nat) : k.potential (.check id :: queue) = k.potential queue + 1 := by
  have hlabels : (Pending.check id :: queue).countP Pending.isLabel =
      queue.countP Pending.isLabel := List.countP_cons_of_neg (by simp)
  rw [potential, hlabels, List.countP_cons_of_pos rfl, potential]
  omega

theorem potential_labelled (d : Datapoint) :
    k.potential (.labelled d :: queue) = k.potential queue + (k.size + 1) := by
  have hlabels : (Pending.labelled d :: queue).countP Pending.isLabel =
      queue.countP Pending.isLabel + 1 := List.countP_cons_of_pos rfl
  rw [potential, hlabels, List.countP_cons_of_neg (by simp), potential, Nat.add_right_comm _ 1,
    Nat.succ_mul]
  omega

theorem size_eq_of_relabels {new : List Pending} (h : k.Relabels k' new) : k'.size = k.size := by
  rw [size, h.constraints_eq, size]

/-- Labels are paid for, so that only new checks raise the potential. -/
theorem potential_relabels {new checks : List Pending} (h : k.Relabels k' new)
    (queue : List Pending) (hchecks : ∀ p ∈ checks, p.isLabel = false) :
    k'.potential (queue ++ checks ++ new) ≤ k.potential queue + checks.length := by
  have hlabels : new.countP (fun p => !p.isLabel) = 0 := by
    simpa [List.countP_eq_zero] using h.isLabel
  have hcount : checks.countP (fun p => !p.isLabel) = checks.length := by
    simpa [List.countP_eq_length] using hchecks
  have hcount' : checks.countP Pending.isLabel = 0 := by
    simpa [List.countP_eq_zero] using hchecks
  have hpaid := h.paid
  have hle : (queue.countP Pending.isLabel + new.length + k'.slack) * (k.size + 1) ≤
      (queue.countP Pending.isLabel + k.slack) * (k.size + 1) :=
    Nat.mul_le_mul_right _ (by omega)
  simp only [potential, List.countP_append, hlabels, hcount, hcount', h.countP,
    size_eq_of_relabels h, Nat.add_zero]
  omega

theorem check_mem_asSource {i : Nat} {c : Constraint} (hc : k.constraints[i]? = some c)
    (hd : d ∈ c.sources) : i ∈ k.asSource d := by
  refine List.mem_filter.2 ⟨List.mem_range.2 (Array.getElem?_eq_some_iff.1 hc).1, ?_⟩
  rw [hc, Option.any_some]
  exact List.contains_iff_mem.2 hd

theorem length_idsWhere_le (p : Constraint → Bool) : (k.idsWhere p).length ≤ k.size := by
  rw [idsWhere]
  exact Nat.le_trans (List.length_filter_le _ _) (Nat.le_of_eq List.length_range)

theorem Tracked.spread (h : k.Tracked (.labelled d :: queue)) {polarity universal : Bool}
    {related : List Datapoint} {watched : List Nat} (hrelated : ∀ e ∈ related, e ∈ k.datapoints)
    (hwatched : watched.length ≤ k.size) {s : Knowledge × List Pending}
    (hstep : Knowledge.spread d polarity universal related
      (k, queue ++ watched.map .check) = .ok s)
    (hdrawn : ∀ new, k.Relabels s.1 new →
      (∀ e ∈ related, ∃ l, s.1.label? e = some l ∧ l.polarity = polarity) → s.1.isTrue d = true →
      (∀ e ∈ k.datapoints, e.subset d = true → s.1.isTrue e = true) ∧
        ∀ i c, k.constraints[i]? = some c → d ∈ c.sources → i ∈ watched) :
    s.1.Tracked s.2 ∧ s.1.potential s.2 < k.potential (.labelled d :: queue) ∧
      s.1.constraints = k.constraints ∧ s.1.points = k.points := by
  obtain ⟨new, hqueue, hrelabels, hall⟩ := relabels_spread hrelated hstep
  simp only at hqueue hrelabels
  have hdrawn := hdrawn new hrelabels hall
  have hchecks : ∀ p ∈ watched.map Pending.check, p.isLabel = false := by simp
  refine ⟨?_, ?_, hrelabels.constraints_eq, hrelabels.points_eq⟩
  · have htracked := h.relabels hrelabels
    rw [hqueue]
    refine htracked.requeue (.of_labelled (d := d) (htracked.covered.mono ?_) ?_ ?_) ?_
    · intro p hp
      simp only [List.cons_append, List.mem_cons, List.mem_append] at hp ⊢
      tauto
    · rw [hrelabels.datapoints_eq]
      exact fun htrue => (hdrawn htrue).1
    · intro htrue i c hc hd
      rw [hrelabels.constraints_eq] at hc
      have hi := (hdrawn htrue).2 i c hc hd
      exact List.mem_append_left _ (List.mem_append_right _ (List.mem_map.2 ⟨i, hi, rfl⟩))
    · have hnone : (watched.map Pending.check).countP Pending.isLabel = 0 := by simp
      simp only [List.cons_append, List.countP_append, hnone, List.countP_cons_of_pos
        (Pending.isLabel_labelled d)]
      omega
  · have hpotential := potential_relabels hrelabels queue hchecks
    rw [hqueue, potential_labelled]
    rw [List.length_map] at hpotential
    omega

theorem Tracked.check {id : Nat} (h : k.Tracked (.check id :: queue)) (hmentioned : k.Mentioned)
    {s : Knowledge × List Pending} (hstep : k.check id queue = .ok s) :
    s.1.Tracked s.2 ∧ s.1.potential s.2 < k.potential (.check id :: queue) ∧
      s.1.constraints = k.constraints ∧ s.1.points = k.points := by
  obtain ⟨new, hqueue, hrelabels, hquiet⟩ := relabels_check hmentioned h hstep
  have htracked := h.relabels hrelabels
  have hpotential := potential_relabels hrelabels queue (List.forall_mem_nil _)
  rw [List.append_nil, List.length_nil] at hpotential
  refine ⟨?_, ?_, hrelabels.constraints_eq, hrelabels.points_eq⟩
  · have hcovered : Covered s.1 _ (.check id :: (queue ++ new)) := htracked.covered
    rw [hqueue]
    refine htracked.requeue (hcovered.of_check fun c hc => ?_) ?_
    · rw [hrelabels.constraints_eq] at hc
      exact hquiet c hc
    · exact List.Sublist.countP_le (List.sublist_cons_self _ _)
  · rw [hqueue, potential_check]
    omega

/-- One step of deduction keeps account of everything and lowers the potential. -/
theorem Tracked.workOut {p : Pending} (h : k.Tracked (p :: queue)) (hmentioned : k.Mentioned)
    {s : Knowledge × List Pending} (hstep : k.workOut p queue = .ok s) :
    s.1.Tracked s.2 ∧ s.1.potential s.2 < k.potential (p :: queue) ∧
      s.1.constraints = k.constraints ∧ s.1.points = k.points := by
  cases p with
  | check id => exact h.check hmentioned hstep
  | labelled d =>
    rw [Knowledge.workOut] at hstep
    cases hl : k.label? d with
    | none =>
      rw [hl] at hstep
      cases hstep
      have hopen : ¬k.isTrue d = true := by simp [isTrue, hl]
      refine ⟨h.requeue (h.covered.of_labelled (absurd · hopen) (absurd · hopen)) ?_, ?_, rfl, rfl⟩
      · exact List.Sublist.countP_le (List.sublist_cons_self _ _)
      · rw [potential_labelled]
        exact Nat.lt_add_of_pos_right (Nat.succ_pos _)
    | some l =>
      have hd := h.labelled_mem d l hl
      rw [hl] at hstep
      cases hpolarity : l.polarity with
      | true =>
        simp only [hpolarity, if_true] at hstep
        refine h.spread (fun e he => (mem_subsetsOf_iff.1 he).2.1) (length_idsWhere_le _) hstep ?_
        intro new hrelabels hall htrue
        refine ⟨fun e he hsub => ?_, fun i c => check_mem_asSource⟩
        by_cases heq : e = d
        · exact heq ▸ htrue
        · exact isTrue_iff.2 (hall e (mem_subsetsOf_iff.2 ⟨hd, he, hsub, heq⟩))
      | false =>
        simp only [hpolarity, Bool.false_eq_true, if_false] at hstep
        refine h.spread (fun e he => (mem_supersetsOf_iff.1 he).2.1) (length_idsWhere_le _) hstep ?_
        intro new hrelabels _ htrue
        obtain ⟨l', hl', heq⟩ := hrelabels.keeps d l hl
        obtain ⟨l'', hl'', htrue⟩ := isTrue_iff.1 htrue
        cases hl'.symm.trans hl''
        rw [heq, hpolarity] at htrue
        cases htrue

/-- With enough fuel everything is worked out, and what each step keeps holds then. -/
theorem Tracked.propagate_induction {P : Knowledge → List Pending → Prop}
    (hstep : ∀ {k p queue s}, Tracked k (p :: queue) → k.Mentioned → P k (p :: queue) →
      k.workOut p queue = .ok s → P s.1 s.2)
    {fuel : Nat} (h : k.Tracked queue) (hmentioned : k.Mentioned) (hP : P k queue)
    (hfuel : k.potential queue ≤ fuel) (hrun : Knowledge.propagate fuel k queue = .ok k') :
    k'.Tracked [] ∧ P k' [] := by
  induction fuel generalizing k queue with
  | zero =>
    cases hrun
    cases queue with
    | nil => exact ⟨h, hP⟩
    | cons p queue =>
      cases p with
      | check id => rw [potential_check] at hfuel; omega
      | labelled d => rw [potential_labelled] at hfuel; omega
  | succ fuel ih =>
    cases queue with
    | nil =>
      cases hrun
      exact ⟨h, hP⟩
    | cons p queue =>
      rw [Knowledge.propagate] at hrun
      split at hrun
      · next k₁ queue₁ hwork =>
        obtain ⟨htracked, hlower, hconstraints, hpoints⟩ := h.workOut hmentioned hwork
        have hmentioned' : k₁.Mentioned := by
          rw [Mentioned, hconstraints, datapoints, hpoints]
          exact hmentioned
        exact ih htracked hmentioned' (hstep h hmentioned hP hwork) (by omega) hrun
      · cases hrun

theorem Tracked.propagate {fuel : Nat} (h : k.Tracked queue) (hmentioned : k.Mentioned)
    (hfuel : k.potential queue ≤ fuel) (hrun : Knowledge.propagate fuel k queue = .ok k') :
    k'.Tracked [] ∧ k'.constraints = k.constraints ∧ k'.points = k.points := by
  refine h.propagate_induction
    (P := fun x _ => x.constraints = k.constraints ∧ x.points = k.points) ?_ hmentioned ⟨rfl, rfl⟩
    hfuel hrun
  intro x p queue s hx hmentioned hsame hwork
  obtain ⟨-, -, hconstraints, hpoints⟩ := hx.workOut hmentioned hwork
  exact ⟨hconstraints.trans hsame.1, hpoints.trans hsame.2⟩

/-! ## New datapoints and constraints -/

theorem perm_datapoints_insert (hd : d ∉ k.datapoints) :
    (datapoints { k with points := k.points.insert d }).Perm (d :: k.datapoints) := by
  refine (List.perm_ext_iff_of_nodup (PointIndex.nodup_toList _)
    (List.nodup_cons.2 ⟨hd, PointIndex.nodup_toList _⟩)).2 fun e => ?_
  exact mem_datapoints_insert.trans List.mem_cons.symm

theorem Bookkept.addPoint (h : k.Bookkept queue) (hd : d ∉ k.datapoints) :
    Bookkept { k with points := k.points.insert d } queue where
  labelled_mem := fun e l hl => mem_datapoints_insert.2 (.inr (h.labelled_mem e l hl))
  retired_lt := h.retired_lt
  settled := h.settled
  room_left := by
    have hroom := h.room_left
    have hnone : k.label? d = none :=
      Option.eq_none_iff_forall_ne_some.2 fun l hl => hd (h.labelled_mem d l hl)
    have hslack : slack { k with points := k.points.insert d } = k.slack + 2 := by
      have hlabel : label? { k with points := k.points.insert d } d = none := hnone
      rw [slack, (perm_datapoints_insert hd).countP_eq, (perm_datapoints_insert hd).countP_eq,
        List.countP_cons, List.countP_cons, hlabel]
      exact Nat.add_add_add_comm ..
    rw [hslack, (perm_datapoints_insert hd).length_eq, List.length_cons]
    omega

/-- Nothing but the new datapoint is registered while it takes over labels. -/
theorem mem_datapoints_inherit {s : Knowledge × List Pending}
    (h : inherit d (k.relatives d) ({ k with points := k.points.insert d }, queue) = .ok s)
    (e : Datapoint) : e ∈ s.1.datapoints ↔ e = d ∨ e ∈ k.datapoints := by
  obtain ⟨_, -, hrelabels, -⟩ := relabels_inherit (mem_datapoints_insert.2 (.inl rfl)) h
  rw [hrelabels.datapoints_eq, mem_datapoints_insert]

theorem Tracked.addPoint {owed : List Pending} (h : k.Tracked (owed ++ queue))
    (hd : d ∉ k.datapoints) {s : Knowledge × List Pending}
    (hrun : inherit d (k.relatives d) ({ k with points := k.points.insert d }, queue) = .ok s) :
    s.1.Tracked (owed ++ s.2) ∧ s.1.constraints = k.constraints ∧
      ∀ e, e ∈ s.1.datapoints ↔ e = d ∨ e ∈ k.datapoints := by
  obtain ⟨new, hqueue, hrelabels, hall⟩ :=
    relabels_inherit (mem_datapoints_insert.2 (.inl rfl)) hrun
  have hmem := mem_datapoints_inherit hrun
  refine ⟨?_, hrelabels.constraints_eq, hmem⟩
  rw [hqueue, ← List.append_assoc]
  have hcovered : Covered { k with points := k.points.insert d } k.datapoints (owed ++ queue) :=
    ⟨h.covered.down, h.covered.quiet⟩
  have hold := hcovered.relabels hrelabels
  refine ⟨(h.toBookkept.addPoint hd).relabels hrelabels, fun e he => ?_, hold.quiet⟩
  rcases hold.down e he with hwaits | hdown
  · exact .inl hwaits
  · rcases hrelabels.announced e he with hbefore | hnew
    · refine .inr fun x hx hsub => ?_
      rcases (hmem x).1 hx with rfl | hx
      · -- the label of `e` was there when the new datapoint took over
        obtain ⟨l, hl, htrue⟩ := isTrue_iff.1 hbefore
        have hrelative : (e, l) ∈ k.relatives x := mem_relatives.2 ⟨hl, h.labelled_mem e l hl,
          fun heq => hd (heq ▸ h.labelled_mem e l hl), .inl hsub⟩
        obtain ⟨l', hl', heq⟩ := hall e l hrelative (htrue.trans hsub.symm)
        exact isTrue_iff.2 ⟨l', hl', heq.trans htrue⟩
      · exact hdown x hx hsub
    · exact .inl (List.mem_append_right _ hnew)

/-- Registering keeps account of everything and registers the datapoint. -/
theorem Tracked.register {owed : List Pending} {fuel : Nat} {s s' : Knowledge × List Pending}
    (h : s.1.Tracked (owed ++ s.2)) (hrun : Knowledge.register fuel d s = .ok s') :
    s'.1.Tracked (owed ++ s'.2) ∧ s'.1.constraints = s.1.constraints ∧
      s.1.datapoints ⊆ s'.1.datapoints ∧ (0 < fuel → d ∈ s'.1.datapoints) := by
  induction fuel generalizing d s s' with
  | zero =>
    cases hrun
    exact ⟨h, rfl, List.Subset.refl _, fun hpos => absurd hpos (Nat.lt_irrefl 0)⟩
  | succ fuel ih =>
    rw [register_succ] at hrun
    split at hrun
    · next hmem =>
      cases hrun
      exact ⟨h, rfl, List.Subset.refl _, fun _ => PointIndex.contains_iff_mem_toList.1 hmem⟩
    · next hnew =>
      obtain ⟨s₁, hinherit, hrun⟩ := bind_eq_ok.1 hrun
      have hd : d ∉ s.1.datapoints := fun hmem => hnew (PointIndex.contains_iff_mem_toList.2 hmem)
      obtain ⟨htracked, hconstraints, hmem⟩ := h.addPoint hd hinherit
      have hfold := of_foldlM_eq_ok (P := fun x : Knowledge × List Pending =>
        x.1.Tracked (owed ++ x.2) ∧ x.1.constraints = s.1.constraints ∧
          s₁.1.datapoints ⊆ x.1.datapoints) ?_ ⟨htracked, hconstraints, List.Subset.refl _⟩ hrun
      · obtain ⟨htracked', hconstraints', hsub⟩ := hfold
        exact ⟨htracked', hconstraints', fun e he => hsub ((hmem e).2 (.inr he)),
          fun _ => hsub ((hmem d).2 (.inl rfl))⟩
      · rintro x m - x' ⟨hx, hconstraints, hsub⟩ hstep
        obtain ⟨hx', hconstraints', hsub', -⟩ := ih hx hstep
        exact ⟨hx', hconstraints'.trans hconstraints, fun e he => hsub' (hsub he)⟩

theorem registerFuel_pos (k : Knowledge) (d : Datapoint) : 0 < k.registerFuel d := by
  rw [registerFuel]
  generalize d :: k.datapoints = ds
  induction ds with
  | nil => exact Nat.zero_lt_one
  | cons e ds ih => exact Nat.add_pos_right _ ih

theorem Tracked.registerAll {owed : List Pending} {ds : List Datapoint}
    {s s' : Knowledge × List Pending} (h : s.1.Tracked (owed ++ s.2))
    (hrun : Knowledge.registerAll ds s = .ok s') :
    s'.1.Tracked (owed ++ s'.2) ∧ s'.1.constraints = s.1.constraints ∧
      s.1.datapoints ⊆ s'.1.datapoints ∧ ds ⊆ s'.1.datapoints := by
  induction ds generalizing s with
  | nil =>
    cases hrun
    exact ⟨h, rfl, List.Subset.refl _, List.nil_subset _⟩
  | cons d ds ih =>
    rw [Knowledge.registerAll] at hrun
    split at hrun
    · next s₁ hregister =>
      obtain ⟨htracked, hconstraints, hsub, hd⟩ := h.register hregister
      obtain ⟨htracked', hconstraints', hsub', hds⟩ := ih htracked hrun
      exact ⟨htracked', hconstraints'.trans hconstraints, fun e he => hsub' (hsub he),
        List.cons_subset.2 ⟨hsub' (hd (registerFuel_pos _ d)), hds⟩⟩
    · cases hrun

/-- Knowledge in which everything that follows is drawn. -/
structure Saturated (k : Knowledge) : Prop where
  tracked : k.Tracked []
  mentioned : k.Mentioned

theorem saturated_empty : Saturated {} := by
  refine ⟨⟨⟨?_, ?_, ?_, ?_⟩, ?_, ?_⟩, ?_⟩
  · intro d l hl
    cases hl
  · intro i hi
    cases hi
  · intro i c hi
    cases hi
  · exact Nat.le_refl 0
  · intro e he
    cases he
  · intro i c hc
    simp at hc
  · intro c hc
    simp at hc

theorem Tracked.push (h : k.Tracked []) (c : Constraint) :
    Tracked { k with constraints := k.constraints.push c } [.check k.size] := by
  have hget : ∀ i c', (k.constraints.push c)[i]? = some c' →
      i = k.size ∨ k.constraints[i]? = some c' := by
    intro i c' hc'
    rw [Array.getElem?_push] at hc'
    split at hc'
    · next heq => exact .inl heq
    · exact .inr hc'
  refine ⟨⟨h.labelled_mem, fun i hi => ?_, fun i c' hi hc' => ?_, h.room_left⟩, fun e he => ?_,
    fun i c' hc' => ?_⟩
  · rw [size, Array.size_push]
    exact Nat.lt_succ_of_lt (h.retired_lt i hi)
  · rcases hget i c' hc' with rfl | hc'
    · exact absurd (h.retired_lt _ hi) (Nat.lt_irrefl _)
    · exact h.settled i c' hi hc'
  · exact .inr ((h.covered.down e he).resolve_left List.not_mem_nil)
  · rcases hget i c' hc' with rfl | hc'
    · exact .inl List.mem_cons_self
    · rcases h.covered.quiet i c' hc' with hmem | ⟨s, -, -, hmem⟩ | hquiet
      · cases hmem
      · cases hmem
      · exact .inr (.inr hquiet)

theorem potential_le_fuel (h : k.Tracked queue) : k.potential queue ≤ k.propagateFuel queue := by
  have hsize : k.points.size = k.datapoints.length := k.points.length_toList.symm
  have hcount : queue.countP (fun p => !p.isLabel) ≤ queue.length := List.countP_le_length
  have hroom : (queue.countP Pending.isLabel + k.slack) * (k.size + 1) ≤
      2 * k.points.size * (k.size + 1) := Nat.mul_le_mul_right _ (hsize ▸ h.room_left)
  rw [potential, propagateFuel]
  omega

/-- A constraint that is known changes nothing. The datapoints of a new one are registered, and then
everything is worked out. -/
theorem insert_eq_ok {c : Constraint} {added : Bool} (h : k.insert c = .ok (added, k')) :
    (added = false ∧ k' = k ∧ c ∈ k.constraints) ∨
      (added = true ∧ c ∉ k.constraints ∧ ∃ next queue,
        registerAll c.datapoints ({ k with constraints := k.constraints.push c }, []) =
          .ok (next, queue) ∧
        propagate (next.propagateFuel (queue ++ [.check k.size])) next (queue ++ [.check k.size]) =
          .ok k') := by
  rw [Knowledge.insert] at h
  split at h
  · next hmem =>
    cases h
    exact .inl ⟨rfl, rfl, Array.contains_iff_mem.1 hmem⟩
  · next hnew =>
    split at h
    · cases h
    · next next queue hregister =>
      obtain ⟨last, hpropagate, heq⟩ := map_eq_ok.1 h
      cases heq
      exact .inr ⟨rfl, fun hmem => hnew (Array.contains_iff_mem.2 hmem), next, queue, hregister,
        hpropagate⟩

theorem Saturated.registerAll (h : k.Saturated) {c : Constraint} {s : Knowledge × List Pending}
    (hrun : Knowledge.registerAll c.datapoints
      ({ k with constraints := k.constraints.push c }, []) = .ok s) :
    s.1.Tracked (s.2 ++ [.check k.size]) ∧ s.1.Mentioned ∧
      s.1.constraints = k.constraints.push c := by
  have hpush : Tracked _ ([.check k.size] ++ []) := h.tracked.push c
  obtain ⟨htracked, hconstraints, hsub, hds⟩ := Tracked.registerAll hpush hrun
  refine ⟨htracked.requeue (htracked.covered.mono (by simp [or_comm])) (by simp), ?_, hconstraints⟩
  intro c' hc' d hd
  rw [hconstraints] at hc'
  rcases Array.mem_push.1 hc' with hc' | rfl
  · exact hsub (h.mentioned c' hc' d hd)
  · exact hds hd

theorem Saturated.insert (h : k.Saturated) {c : Constraint} {added : Bool}
    (hinsert : k.insert c = .ok (added, k')) :
    k'.Saturated ∧ ∀ c', c' ∈ k'.constraints ↔ c' ∈ k.constraints ∨ c' = c := by
  rcases insert_eq_ok hinsert with ⟨-, rfl, hmem⟩ | ⟨-, -, next, queue, hregister, hpropagate⟩
  · refine ⟨h, fun c' => ⟨.inl, ?_⟩⟩
    rintro (hc' | rfl)
    · exact hc'
    · exact hmem
  · obtain ⟨htracked, hmentioned, hconstraints⟩ := h.registerAll hregister
    obtain ⟨hdone, hconstraints', hpoints⟩ :=
      htracked.propagate hmentioned (potential_le_fuel htracked) hpropagate
    refine ⟨⟨hdone, ?_⟩, fun c' => ?_⟩
    · rw [Mentioned, hconstraints', datapoints, hpoints]
      exact hmentioned
    · rw [hconstraints', hconstraints]
      exact Array.mem_push

theorem mem_retired_simplify {i : Nat} (h : k.simplify.2.retired.contains i = true) :
    k.retired.contains i = true ∨ i < k.size ∧ (k.constraints[i]?).any k.isSettled = true := by
  rw [SortedSet.contains_iff_mem_toList, simplify, SortedSet.mem_toList_foldl_insert] at h
  rcases h with h | h
  · obtain ⟨hrange, hsettled⟩ := List.mem_filter.1 (List.mem_filter.1 h).1
    exact .inr ⟨List.mem_range.1 hrange, hsettled⟩
  · exact .inl (SortedSet.contains_iff_mem_toList.2 h)

theorem settled_of_isSettled {c : Constraint} (h : k.isSettled c = true) : k.Settled c := by
  have hdecided : ∀ polarity d, k.isDecided polarity d = true →
      ∃ l, k.label? d = some l ∧ l.polarity = polarity := by
    intro polarity d hd
    rw [isDecided, Option.any_eq_true] at hd
    obtain ⟨l, hl, hboth⟩ := hd
    rw [Bool.and_eq_true, beq_iff_eq] at hboth
    exact ⟨l, hl, hboth.2⟩
  rw [isSettled, Bool.or_eq_true, Option.any_eq_true, List.any_eq_true] at h
  rcases h with ⟨t, ht, hd⟩ | ⟨s, hs, hd⟩
  · exact .inr ⟨t, ht, isTrue_iff.2 (hdecided true t hd)⟩
  · exact .inl ⟨s, hs, isFalse_iff.2 (hdecided false s hd)⟩

theorem Saturated.simplify (h : k.Saturated) : k.simplify.2.Saturated := by
  refine ⟨⟨⟨h.tracked.labelled_mem, fun i hi => ?_, fun i c hi hc => ?_, h.tracked.room_left⟩,
    h.tracked.covered.down, h.tracked.covered.quiet⟩, h.mentioned⟩
  · exact (mem_retired_simplify hi).elim (h.tracked.retired_lt i) And.left
  · rcases mem_retired_simplify hi with hi | ⟨-, hsettled⟩
    · exact h.tracked.settled i c hi hc
    · have hc : k.constraints[i]? = some c := hc
      rw [hc, Option.any_some] at hsettled
      exact settled_of_isSettled hsettled

/-! ## Models -/

/-- The datapoints inside true ones are a model. -/
theorem Saturated.exists_model (h : k.Saturated) :
    ∃ T, Datapoint.Closed T ∧ ∀ c ∈ k.constraints, c.Meets T := by
  refine ⟨fun d => ∃ e, k.isTrue e = true ∧ d.subset e = true, ?_, ?_⟩
  · rintro d e ⟨f, hf, hef⟩ hde
    exact ⟨f, hf, Datapoint.subset_trans hde hef⟩
  · intro c hc hsources
    obtain ⟨i, hi⟩ := Array.mem_iff_getElem?.1 hc
    have htrue : ∀ s ∈ c.sources, k.isTrue s = true := by
      intro s hs
      obtain ⟨e, he, hsub⟩ := hsources s hs
      rcases h.tracked.covered.down e he with hwaits | hall
      · cases hwaits
      · exact hall s (h.mentioned c hc s (source_mem_datapoints hs)) hsub
    rcases h.tracked.covered.quiet i c hi with hwaits | ⟨s, -, -, hwaits⟩ | ⟨s, hs, hopen⟩ | hdrawn
    · cases hwaits
    · cases hwaits
    · cases (htrue s hs).symm.trans hopen
    · obtain ⟨t, ht, htrue⟩ := hdrawn
      exact ⟨t, ht, t, htrue, t.subset_refl⟩

/-- Knowledge that comes from constraints added one after another without a contradiction, with
retired constraints or not. -/
inductive Reachable : Knowledge → Prop where
  | empty : Reachable {}
  | insert {k k' : Knowledge} {c : Constraint} {added : Bool} (hk : Reachable k)
      (hinsert : k.insert c = .ok (added, k')) : Reachable k'
  | simplify {k : Knowledge} (hk : Reachable k) : Reachable k.simplify.2

theorem Reachable.saturated (h : k.Reachable) : k.Saturated := by
  induction h with
  | empty => exact saturated_empty
  | insert _ hinsert ih => exact (ih.insert hinsert).1
  | simplify _ ih => exact ih.simplify

/-- Every label is right in every model. -/
theorem Reachable.respects (h : k.Reachable) {T : Datapoint → Prop} (hT : Datapoint.Closed T)
    (hmeets : ∀ c ∈ k.constraints, c.Meets T) : k.Respects T := by
  induction h with
  | empty => exact ⟨hT, hmeets, fun d l hl => by cases hl⟩
  | insert hk hinsert ih =>
    have hmem := (hk.saturated.insert hinsert).2
    have hold := ih fun c hc => hmeets c ((hmem c).2 (.inl hc))
    obtain ⟨added, last, heq, hlast⟩ := hold.insert (hmeets _ ((hmem _).2 (.inr rfl)))
    cases hinsert.symm.trans heq
    exact hlast
  | simplify _ ih =>
    obtain ⟨hclosed, hmeets, hlabels⟩ := ih hmeets
    exact ⟨hclosed, hmeets, hlabels⟩

/-- Guesses contradict what is known exactly when no model meets them. -/
theorem Reachable.assume_eq_error_iff (h : k.Reachable) (cs : List Constraint) :
    (∃ e, k.assume cs = .error e) ↔
      ¬∃ T, Datapoint.Closed T ∧ (∀ c ∈ k.constraints, c.Meets T) ∧ ∀ c ∈ cs, c.Meets T := by
  constructor
  · rintro ⟨e, he⟩ ⟨T, hT, hmeets, hcs⟩
    obtain ⟨k', hk', -⟩ := (h.respects hT hmeets).assume hcs
    cases he.symm.trans hk'
  · intro hnone
    cases hrun : k.assume cs with
    | error e => exact ⟨e, rfl⟩
    | ok k' =>
      exfalso
      apply hnone
      clear hnone
      induction cs generalizing k with
      | nil =>
        obtain ⟨T, hT, hmeets⟩ := h.saturated.exists_model
        exact ⟨T, hT, hmeets, by simp⟩
      | cons c cs ih =>
        rw [Knowledge.assume] at hrun
        split at hrun
        · next added next hinsert =>
          obtain ⟨T, hT, hmeets, hcs⟩ := ih (h.insert hinsert) hrun
          have hmem := (h.saturated.insert hinsert).2
          exact ⟨T, hT, fun c' hc' => hmeets c' ((hmem c').2 (.inl hc')),
            List.forall_mem_cons.2 ⟨hmeets c ((hmem c).2 (.inr rfl)), hcs⟩⟩
        · cases hrun

theorem Saturated.constraints_insert (hk : k.Saturated) {c : Constraint} {added : Bool}
    (h : k.insert c = .ok (added, k')) :
    (added = false ∧ k' = k ∧ c ∈ k.constraints) ∨
      (added = true ∧ c ∉ k.constraints ∧ k'.constraints = k.constraints.push c) := by
  rcases insert_eq_ok h with hold | ⟨hadded, hnew, next, queue, hregister, hpropagate⟩
  · exact .inl hold
  · obtain ⟨htracked, hmentioned, hconstraints⟩ := hk.registerAll hregister
    obtain ⟨-, hsame, -⟩ := htracked.propagate hmentioned (potential_le_fuel htracked) hpropagate
    exact .inr ⟨hadded, hnew, hsame.trans hconstraints⟩

theorem nodup_push {cs : Array Constraint} (hcs : cs.toList.Nodup) {c : Constraint} (hnew : c ∉ cs) :
    (cs.push c).toList.Nodup := by
  rw [Array.toList_push, List.nodup_append]
  refine ⟨hcs, List.pairwise_singleton _ _, fun a ha b hb heq => hnew ?_⟩
  rw [List.mem_singleton.1 hb] at heq
  exact heq ▸ Array.mem_toList_iff.1 ha

theorem Reachable.nodup (h : k.Reachable) : k.constraints.toList.Nodup := by
  induction h with
  | empty => exact List.nodup_nil
  | insert hk hinsert ih =>
    rcases hk.saturated.constraints_insert hinsert with ⟨-, rfl, -⟩ | ⟨-, hnew, hpush⟩
    · exact ih
    · rw [hpush]
      exact nodup_push ih hnew
  | simplify _ ih => exact ih

end Knowledge

theorem Constraint.meets_assumeTrue {T : Datapoint → Prop} {d : Datapoint} :
    (assumeTrue d).Meets T ↔ T d := by
  simp [Meets, assumeTrue]

theorem Constraint.meets_assumeFalse {T : Datapoint → Prop} {d : Datapoint} :
    (assumeFalse d).Meets T ↔ ¬T d := by
  simp [Meets, assumeFalse]

theorem Knowledge.insert_eq_error_iff {k : Knowledge} {c : Constraint} :
    (∃ e, k.insert c = .error e) ↔ ∃ e, k.assume [c] = .error e := by
  rw [assume]
  cases k.insert c with
  | error e => simp
  | ok r => simp [assume]

/-- Contradictions are found exactly: a new constraint is refused, and so are guesses that
datapoints lie inside or do not, exactly when no closed set of datapoints meets the old constraints
and the new ones. -/
theorem contradiction_iff_no_model {k : Knowledge} (hk : k.Reachable) :
    (∀ c, (∃ e, k.insert c = .error e) ↔
      ¬∃ T, Datapoint.Closed T ∧ (∀ c' ∈ k.constraints, c'.Meets T) ∧ c.Meets T) ∧
    (∀ ds, (∃ e, k.withTrue ds = .error e) ↔
      ¬∃ T, Datapoint.Closed T ∧ (∀ c ∈ k.constraints, c.Meets T) ∧ ∀ d ∈ ds, T d) ∧
    ∀ ds, (∃ e, k.withFalse ds = .error e) ↔
      ¬∃ T, Datapoint.Closed T ∧ (∀ c ∈ k.constraints, c.Meets T) ∧ ∀ d ∈ ds, ¬T d := by
  refine ⟨fun c => ?_, fun ds => ?_, fun ds => ?_⟩
  · rw [Knowledge.insert_eq_error_iff, hk.assume_eq_error_iff]
    simp only [List.forall_mem_singleton]
  · rw [Knowledge.withTrue, hk.assume_eq_error_iff]
    simp only [List.forall_mem_map, Constraint.meets_assumeTrue]
  · rw [Knowledge.withFalse, hk.assume_eq_error_iff]
    simp only [List.forall_mem_map, Constraint.meets_assumeFalse]

/-- Once all states at a site lie inside, excluding one of them is a contradiction, while guessing
one inside is none. -/
theorem everything_inside_contradiction :
    ∃ k, Knowledge.insert {} ⟨[], some ⟨0, ∅⟩, .clause 0⟩ = .ok (true, k) ∧
      (¬∃ T, Datapoint.Closed T ∧ (∀ c ∈ k.constraints, c.Meets T) ∧
        Constraint.Meets ⟨[⟨0, .ofList [("x", .int 1)]⟩], none, .clause 1⟩ T) ∧
      ∃ T, Datapoint.Closed T ∧ (∀ c ∈ k.constraints, c.Meets T) ∧
        ∀ d ∈ [⟨0, .ofList [("x", .int 1)]⟩], T d := by
  have hrun : (Knowledge.insert {} ⟨[], some ⟨0, ∅⟩, .clause 0⟩).toOption.any (fun r =>
      r.1 && !(r.2.insert ⟨[⟨0, .ofList [("x", .int 1)]⟩], none, .clause 1⟩).isOk &&
        (r.2.withTrue [⟨0, .ofList [("x", .int 1)]⟩]).isOk) = true := by decide +kernel
  obtain ⟨⟨added, k⟩, hk, hrun⟩ := (Option.any_eq_true ..).1 hrun
  simp only [Bool.and_eq_true, Bool.not_eq_true'] at hrun
  obtain ⟨⟨rfl, herror⟩, hok⟩ := hrun
  have hk := toOption_eq_some_iff.1 hk
  have hexact := contradiction_iff_no_model (.insert .empty hk)
  refine ⟨k, hk, (hexact.1 _).1 ?_, not_not.1 fun hnone => ?_⟩
  · exact isOk_eq_false_iff.1 herror
  · rw [isOk_eq_false_iff.2 ((hexact.2.1 _).2 hnone)] at hok
    cases hok

end LoopInvariant
