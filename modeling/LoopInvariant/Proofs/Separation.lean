import LoopInvariant.Proofs.Classification
/-!
# Trees over observed values

Datapoints that give every declared variable a value of its sort are told apart by an equality or by
a Boolean variable. So a set of several such datapoints can be split. A single datapoint can be a
leaf, because what is known has a model. A learner that uses values is then never without
candidates.
-/

namespace LoopInvariant

/-! ## Total datapoints -/

namespace Datapoint

/-- Exactly the declared variables have values, each of its sort. -/
structure Total (decls : List VarDecl) (p : Datapoint) : Prop where
  value : ∀ d ∈ decls, ∃ a, p.valuation.get? d.name = some a ∧ a.sort = d.sort
  declared : ∀ x a, p.valuation.get? x = some a → ∃ d ∈ decls, d.name = x

variable {decls : List VarDecl} {p q m : Datapoint}

theorem total_iff : p.Total decls ↔
    (∀ d ∈ decls, (p.valuation.get? d.name).map (·.sort) = some d.sort) ∧
      ∀ x ∈ p.valuation.keys, x ∈ decls.map (·.name) := by
  simp only [Option.map_eq_some_iff, SortedMap.mem_keys_iff, List.mem_map, forall_exists_index]
  exact ⟨fun h => ⟨h.value, h.declared⟩, fun h => ⟨h.1, h.2⟩⟩

instance (decls : List VarDecl) (p : Datapoint) : Decidable (p.Total decls) :=
  decidable_of_iff' _ total_iff

theorem Total.meet (hp : p.Total decls) (hq : q.Total decls) (h : p.meet? q = some m) :
    m.Total decls := by
  obtain ⟨-, -, hvalues⟩ := meet?_eq_some_iff.1 h
  constructor
  · intro d hd
    obtain ⟨a, ha, hsort⟩ := hp.value d hd
    exact ⟨a, by rw [hvalues, ha, Option.some_or], hsort⟩
  · intro x a hx
    rw [hvalues, Option.or_eq_some_iff] at hx
    rcases hx with hx | ⟨-, hx⟩
    · exact hp.declared x a hx
    · exact hq.declared x a hx

theorem Total.of_generated {S : Datapoint → Prop} (hS : ∀ d, S d → d.Total decls)
    (h : Generated S p) : p.Total decls := by
  induction h with
  | given hd => exact hS _ hd
  | meet _ _ hm ihd ihe => exact ihd.meet ihe hm

theorem Total.exists_ne (hp : p.Total decls) (hq : q.Total decls) (hsite : p.site = q.site)
    (hne : p ≠ q) : ∃ d ∈ decls, p.valuation.get? d.name ≠ q.valuation.get? d.name := by
  by_contra hsame
  apply hne
  apply eq_of_get? hsite
  intro x
  by_cases hx : ∃ d ∈ decls, d.name = x
  · obtain ⟨d, hd, rfl⟩ := hx
    by_contra hdiffer
    exact hsame ⟨d, hd, hdiffer⟩
  · have hnone : ∀ {r : Datapoint}, r.Total decls → r.valuation.get? x = none := by
      intro r hr
      rw [Option.eq_none_iff_forall_ne_some]
      intro a ha
      exact hx (hr.declared x a ha)
    rw [hnone hp, hnone hq]

end Datapoint

/-! ## Splits -/

namespace TreeLearner

open Knowledge

variable {l : TreeLearner} {k : Knowledge} {points : List Datapoint} {p q : Datapoint}

/-- A predicate that is true on one datapoint of a set and false on another. -/
def Tells (points : List Datapoint) (t : Term) : Prop :=
  (∃ r ∈ points, t.evalBool r.valuation.get? = some true) ∧
    ∃ r ∈ points, t.evalBool r.valuation.get? = some false

theorem tells_bool {d : VarDecl} (hsort : d.sort = .bool) (hp : p ∈ points) (hq : q ∈ points)
    {i j : Bool} (hi : p.valuation.get? d.name = some (.bool i))
    (hj : q.valuation.get? d.name = some (.bool j)) (hne : i ≠ j) :
    ∃ t ∈ predicatesOn d points, Tells points t := by
  have hobserved : points.filterMap (fun r => r.valuation.get? d.name) ≠ [] :=
    List.ne_nil_of_mem (List.mem_filterMap.2 ⟨p, hp, hi⟩)
  have hvalue : ∀ {r : Datapoint} {b : Bool}, r.valuation.get? d.name = some (.bool b) →
      (Term.var d.name).evalBool r.valuation.get? = some b := by
    intro r b hr
    rw [Term.evalBool, Term.eval, hr]
    rfl
  refine ⟨.var d.name, ?_, ?_⟩
  · simp only [predicatesOn, hsort, List.isEmpty_iff, hobserved, if_false]
    exact List.mem_singleton.2 rfl
  · cases i with
    | true =>
      cases Bool.eq_false_of_not_eq_true (Ne.symm hne)
      exact ⟨⟨p, hp, hvalue hi⟩, q, hq, hvalue hj⟩
    | false =>
      cases Bool.eq_true_of_not_eq_false (Ne.symm hne)
      exact ⟨⟨q, hq, hvalue hj⟩, p, hp, hvalue hi⟩

theorem tells_int {d : VarDecl} (hsort : d.sort = .int) (hp : p ∈ points) (hq : q ∈ points)
    {i j : Int64} (hi : p.valuation.get? d.name = some (.int i))
    (hj : q.valuation.get? d.name = some (.int j)) (hne : i ≠ j) :
    ∃ t ∈ predicatesOn d points, Tells points t := by
  have hvalue : ∀ {r : Datapoint} {c : Int64}, r.valuation.get? d.name = some (.int c) →
      (Term.equals (.var d.name) (.int i)).evalBool r.valuation.get? = some (decide (c = i)) := by
    intro r c hr
    have heval : (Term.var d.name).eval r.valuation.get? = some (.int c) := hr
    rw [Term.equals, Term.evalBool_bin, heval]
    simp [Term.eval, Connective.join]
  refine ⟨.equals (.var d.name) (.int i), ?_, ⟨p, hp, ?_⟩, q, hq, ?_⟩
  · simp only [predicatesOn, hsort]
    refine List.mem_append_right _ (List.mem_map_of_mem (SortedSet.mem_toList_ofList.2 ?_))
    exact List.mem_filterMap.2 ⟨.int i, List.mem_filterMap.2 ⟨p, hp, hi⟩, rfl⟩
  · simp [hvalue hi]
  · simp [hvalue hj, Ne.symm hne]

/-- Different datapoints at a site are told apart by a predicate that their values suggest. -/
theorem exists_predicate (hvalues : l.useValues = true) (htotal : ∀ r ∈ points, r.Total l.decls)
    (hp : p ∈ points) (hq : q ∈ points) (hsite : p.site = q.site) (hne : p ≠ q) :
    ∃ t ∈ l.predicates points, Tells points t := by
  obtain ⟨d, hd, hdiffer⟩ := (htotal p hp).exists_ne (htotal q hq) hsite hne
  obtain ⟨a, ha, hasort⟩ := (htotal p hp).value d hd
  obtain ⟨b, hb, hbsort⟩ := (htotal q hq).value d hd
  have htells : ∃ t ∈ predicatesOn d points, Tells points t := by
    rw [ha, hb, ne_eq, Option.some.injEq] at hdiffer
    cases hsort : d.sort with
    | bool =>
      obtain ⟨i, rfl⟩ := Value.exists_bool (hasort.trans hsort)
      obtain ⟨j, rfl⟩ := Value.exists_bool (hbsort.trans hsort)
      exact tells_bool hsort hp hq ha hb fun heq => hdiffer (heq ▸ rfl)
    | int =>
      obtain ⟨i, rfl⟩ := Value.exists_int (hasort.trans hsort)
      obtain ⟨j, rfl⟩ := Value.exists_int (hbsort.trans hsort)
      exact tells_int hsort hp hq ha hb fun heq => hdiffer (heq ▸ rfl)
  obtain ⟨t, ht, htells⟩ := htells
  refine ⟨t, ?_, htells⟩
  rw [predicates, if_pos hvalues]
  exact List.mem_append_left _ (List.mem_flatMap.2 ⟨d, hd, ht⟩)

structure Split.Parts (s : Split) (points : List Datapoint) : Prop where
  yes : s.yes.Sublist points
  no : s.no.Sublist points
  length_yes : s.yes.length < points.length
  length_no : s.no.length < points.length

theorem parts_of_splitOn? {t : Term} {x : Nat × Split} (h : splitOn? k points t = some x) :
    x.2.Parts points := by
  rw [splitOn?] at h
  simp only at h
  split at h
  · next hlength =>
    cases h
    exact ⟨List.filter_sublist, List.filter_sublist, hlength.1, hlength.2⟩
  · cases h

theorem exists_splitOn? {t : Term} (h : Tells points t) : ∃ x, splitOn? k points t = some x := by
  obtain ⟨⟨p, hp, htrue⟩, q, hq, hfalse⟩ := h
  have hyes : (points.filter fun r => t.evalBool r.valuation.get? ≠ some false).length <
      points.length := List.length_filter_lt_length_iff_exists.2 ⟨q, hq, by simp [hfalse]⟩
  have hno : (points.filter fun r => t.evalBool r.valuation.get? ≠ some true).length <
      points.length := List.length_filter_lt_length_iff_exists.2 ⟨p, hp, by simp [htrue]⟩
  rw [splitOn?]
  exact ⟨_, if_pos ⟨hyes, hno⟩⟩

theorem exists_best? {splits : List (Nat × Split)} (h : splits ≠ []) :
    ∃ x, best? splits = some x := by
  cases splits with
  | nil => exact absurd rfl h
  | cons s rest =>
    rw [best?]
    split
    · exact ⟨s, rfl⟩
    · split
      · exact ⟨_, rfl⟩
      · exact ⟨s, rfl⟩

/-- Half of several sites is some of them and not all. -/
theorem exists_site_half {sites : List Loc} (hnodup : sites.Nodup) (h : 1 < sites.length) :
    (∃ x ∈ sites, x ∈ sites.take (sites.length / 2)) ∧
      ∃ x ∈ sites, x ∉ sites.take (sites.length / 2) := by
  have htake : 0 < (sites.take (sites.length / 2)).length := by
    rw [List.length_take]
    omega
  have hdrop : 0 < (sites.drop (sites.length / 2)).length := by
    rw [List.length_drop]
    omega
  obtain ⟨x, hx⟩ := List.exists_mem_of_length_pos htake
  obtain ⟨y, hy⟩ := List.exists_mem_of_length_pos hdrop
  refine ⟨⟨x, List.mem_of_mem_take hx, hx⟩, y, List.mem_of_mem_drop hy, fun hy' => ?_⟩
  exact List.disjoint_take_drop hnodup (Nat.le_refl _) hy' hy

theorem mem_sites {x : Loc} :
    x ∈ (SortedSet.ofList (points.map (·.site))).toList ↔ ∃ r ∈ points, r.site = x := by
  rw [SortedSet.mem_toList_ofList, List.mem_map]

theorem size_sites : (SortedSet.ofList (points.map (·.site))).size =
    (SortedSet.ofList (points.map (·.site))).toList.length :=
  (SortedMap.length_keys _).symm

/-- Whatever is known, both sides of a split are smaller than the set. -/
theorem parts_of_split {s : Split} (h : l.split k points = .ok s) : s.Parts points := by
  rw [split] at h
  simp only [size_sites] at h
  split at h
  · next hseveral =>
    cases h
    obtain ⟨⟨x, hx, hhalf⟩, y, hy, hother⟩ :=
      exists_site_half (SortedSet.nodup_toList _) hseveral
    obtain ⟨r, hr, rfl⟩ := mem_sites.1 hx
    obtain ⟨r', hr', rfl⟩ := mem_sites.1 hy
    refine ⟨List.filter_sublist, List.filter_sublist, ?_, ?_⟩
    · refine List.length_filter_lt_length_iff_exists.2 ⟨r', hr', ?_⟩
      rwa [SortedSet.contains_iff_mem_toList, SortedSet.mem_toList_ofList]
    · refine List.length_filter_lt_length_iff_exists.2 ⟨r, hr, ?_⟩
      rw [Bool.not_eq_true', Bool.not_eq_false, SortedSet.contains_iff_mem_toList,
        SortedSet.mem_toList_ofList]
      exact hhalf
  · split at h
    · next hbest =>
      cases h
      obtain ⟨t, -, ht⟩ := List.mem_filterMap.1 (mem_of_best? hbest)
      exact parts_of_splitOn? ht
    · cases h

theorem exists_split (hvalues : l.useValues = true) (htotal : ∀ r ∈ points, r.Total l.decls)
    (hp : p ∈ points) (hq : q ∈ points) (hne : p ≠ q) : ∃ s, l.split k points = .ok s := by
  rw [split]
  simp only [size_sites]
  split
  · exact ⟨_, rfl⟩
  · next hone =>
    have hsite : p.site = q.site := by
      have hmem := mem_sites.2 ⟨p, hp, rfl⟩
      have hmem' := mem_sites.2 ⟨q, hq, rfl⟩
      cases htoList : (SortedSet.ofList (points.map (·.site))).toList with
      | nil =>
        rw [htoList] at hmem
        cases hmem
      | cons x rest =>
        rw [htoList] at hmem hmem' hone
        cases rest with
        | nil => exact (List.mem_singleton.1 hmem).trans (List.mem_singleton.1 hmem').symm
        | cons y rest => simp at hone
    obtain ⟨t, ht, htells⟩ := exists_predicate hvalues htotal hp hq hsite hne
    obtain ⟨x, hx⟩ := exists_splitOn? htells
    obtain ⟨b, hb⟩ := exists_best? (List.ne_nil_of_mem (List.mem_filterMap.2 ⟨t, ht, hx⟩))
    rw [hb]
    exact ⟨b.2, rfl⟩

/-! ## Leaves -/

theorem exists_labelAll? (hk : k.Reachable) {T : Datapoint → Prop} (hT : Datapoint.Closed T)
    (hmeets : ∀ c ∈ k.constraints, c.Meets T) (points : List Datapoint) (polarity : Bool)
    (h : ∀ r ∈ points, T r ↔ polarity = true) : ∃ n, labelAll? k points polarity = some n := by
  have hright := hk.respects hT hmeets
  have hopened : ∀ r ∈ points.filter fun r => (k.label? r).isNone, T r ↔ polarity = true :=
    fun r hr => h r (List.mem_filter.1 hr).1
  rw [labelAll?]
  cases polarity with
  | true =>
    have hopposed : ¬points.any k.isFalse = true := by
      intro hany
      obtain ⟨r, hr, hfalse⟩ := List.any_eq_true.1 hany
      obtain ⟨label, hlabel, hpolarity⟩ := isFalse_iff.1 hfalse
      cases hpolarity.symm.trans ((hright.labels r label hlabel).2 ((h r hr).2 rfl))
    obtain ⟨n, hn, -⟩ := hright.assume (List.forall_mem_map.2 fun r hr =>
      Constraint.meets_assumeTrue.2 ((hopened r hr).2 rfl))
    simp only [if_true, if_neg hopposed]
    exact ⟨n, toOption_eq_some_iff.2 hn⟩
  | false =>
    have hopposed : ¬points.any k.isTrue = true := by
      intro hany
      obtain ⟨r, hr, htrue⟩ := List.any_eq_true.1 hany
      obtain ⟨label, hlabel, hpolarity⟩ := isTrue_iff.1 htrue
      cases (h r hr).1 ((hright.labels r label hlabel).1 hpolarity)
    obtain ⟨n, hn, -⟩ := hright.assume (List.forall_mem_map.2 fun r hr =>
      Constraint.meets_assumeFalse.2 fun hr' => Bool.false_ne_true ((hopened r hr).1 hr'))
    simp only [Bool.false_eq_true, if_false, if_neg hopposed]
    exact ⟨n, toOption_eq_some_iff.2 hn⟩

theorem exists_leaf?_of_labelAll? {polarity : Bool} {n : Knowledge}
    (h : labelAll? k points polarity = some n) : ∃ r, leaf? k points = some r := by
  rw [← Option.isSome_iff_exists, leaf?, Option.isSome_or, Option.isSome_map, Option.isSome_map,
    Bool.or_eq_true]
  rcases Bool.eq_or_eq_not polarity
    (decide ((points.filter k.isFalse).length ≤ (points.filter k.isTrue).length)) with heq | heq
  · rw [heq] at h
    exact .inl (Option.isSome_iff_exists.2 ⟨n, h⟩)
  · rw [heq] at h
    exact .inr (Option.isSome_iff_exists.2 ⟨n, h⟩)

theorem exists_leaf? (hk : k.Reachable) (h : points.length ≤ 1) : ∃ r, leaf? k points = some r := by
  obtain ⟨T, hT, hmeets⟩ := hk.saturated.exists_model
  cases points with
  | nil =>
    obtain ⟨n, hn⟩ := exists_labelAll? hk hT hmeets [] true (by simp)
    exact exists_leaf?_of_labelAll? hn
  | cons p rest =>
    cases List.eq_nil_of_length_eq_zero (Nat.le_zero.1 (Nat.le_of_succ_le_succ h))
    by_cases hp : T p
    · obtain ⟨n, hn⟩ := exists_labelAll? hk hT hmeets [p] true (by simp [hp])
      exact exists_leaf?_of_labelAll? hn
    · obtain ⟨n, hn⟩ := exists_labelAll? hk hT hmeets [p] false (by simp [hp])
      exact exists_leaf?_of_labelAll? hn

/-! ## Growing -/

theorem exists_grow (hvalues : l.useValues = true) (hk : k.Reachable)
    (htotal : ∀ r ∈ points, r.Total l.decls) (hnodup : points.Nodup) {depth : Nat}
    (hdepth : points.length < depth) : ∃ r, l.grow depth k points = .ok r := by
  induction depth generalizing k points with
  | zero => exact absurd hdepth (Nat.not_lt_zero _)
  | succ depth ih =>
    rw [grow]
    split
    · exact ⟨_, rfl⟩
    · next hnone =>
      -- without a leaf there are two datapoints
      have hseveral : 1 < points.length := by
        by_contra hfew
        obtain ⟨r, hr⟩ := exists_leaf? hk (Nat.le_of_not_lt hfew)
        cases hnone.symm.trans hr
      have hne : points[0] ≠ points[1] :=
        List.pairwise_iff_getElem.1 hnodup 0 1 (by omega) hseveral Nat.zero_lt_one
      obtain ⟨s, hs⟩ := exists_split (k := k) hvalues htotal (List.getElem_mem _)
        (List.getElem_mem _) hne
      have hparts := parts_of_split hs
      have hsmaller : ∀ {k' : Knowledge} {side : List Datapoint}, k'.Reachable →
          side.Sublist points → side.length < points.length →
            ∃ r, l.grow depth k' side = .ok r := by
        intro k' side hk' hsub hlength
        refine ih hk' (fun r hr => htotal r (hsub.subset hr)) (hnodup.sublist hsub) ?_
        omega
      obtain ⟨⟨yes, k'⟩, hyes⟩ := hsmaller hk hparts.yes hparts.length_yes
      have hk' := (grown_of_grow hk hyes).reachable
      obtain ⟨⟨no, k''⟩, hno⟩ := hsmaller hk' hparts.no hparts.length_no
      simp only [hs, hyes, hno]
      exact ⟨_, rfl⟩

/-- A learner that uses values has a tree for total datapoints. -/
theorem exists_learn (hvalues : l.useValues = true) (hk : k.Reachable)
    (htotal : ∀ r ∈ k.datapoints, r.Total l.decls) : ∃ tree, l.learn k = .ok tree := by
  obtain ⟨r, hr⟩ := exists_grow hvalues hk htotal (PointIndex.nodup_toList k.points)
    (Nat.lt_succ_self _)
  exact ⟨r.1, by rw [learn, hr]; rfl⟩

end TreeLearner

end LoopInvariant
