import LoopInvariant.Proofs.LeastLabels
import LoopInvariant.Proofs.ValueTree
/-!
# Where trees sort datapoints

A tree sorts a datapoint as its formula says, wherever the formula has a truth value, and the formula
has one wherever all predicates on the way of the datapoint do. A tree that was learned sorts every
registered datapoint by its label in the end, when the guesses of all leaves are taken for granted.
These labels contradict no constraint, and so the tree meets all of them.
-/

namespace LoopInvariant

/-! ## Formulas in disjunctive normal form -/

namespace Dnf

variable {env : Env} {f g : Dnf} {t : Term}

theorem evalBool_eq_true_iff :
    f.toTerm.evalBool env = some true ↔ ∃ ts ∈ f, ∀ t ∈ ts, t.evalBool env = some true := by
  have hor : ∀ bs, Junction.or.join bs = some true ↔ some true ∈ bs :=
    fun bs => Junction.or.join_eq_absorbing_iff
  rw [toTerm, Term.disj, Term.evalBool_junction, hor, List.map_map, List.mem_map]
  simp only [Function.comp_apply, Term.evalBool_conj_eq_true_iff]

theorem evalBool_eq_false_iff :
    f.toTerm.evalBool env = some false ↔ ∀ ts ∈ f, ∃ t ∈ ts, t.evalBool env = some false := by
  have hor : ∀ bs, Junction.or.join bs = some false ↔ ∀ b ∈ bs, b = some false :=
    fun bs => Junction.or.join_eq_neutral_iff
  have hand : ∀ bs, Junction.and.join bs = some false ↔ some false ∈ bs :=
    fun bs => Junction.and.join_eq_absorbing_iff
  rw [toTerm, Term.disj, Term.evalBool_junction, hor, List.map_map, List.forall_mem_map]
  refine forall₂_congr fun ts _ => ?_
  rw [Function.comp_apply, Term.conj, Term.evalBool_junction, hand, List.mem_map]

theorem evalBool_append_true : (Dnf.toTerm (f ++ g)).evalBool env = some true ↔
    f.toTerm.evalBool env = some true ∨ g.toTerm.evalBool env = some true := by
  simp only [evalBool_eq_true_iff, List.mem_append, or_and_right, exists_or]

theorem evalBool_append_false : (Dnf.toTerm (f ++ g)).evalBool env = some false ↔
    f.toTerm.evalBool env = some false ∧ g.toTerm.evalBool env = some false := by
  simp only [evalBool_eq_false_iff, List.mem_append, or_imp, forall_and]

theorem evalBool_guard_true : (Dnf.toTerm (f.map (· ++ [t]))).evalBool env = some true ↔
    f.toTerm.evalBool env = some true ∧ t.evalBool env = some true := by
  simp only [evalBool_eq_true_iff, List.mem_map, exists_exists_and_eq_and, List.forall_mem_append,
    List.forall_mem_singleton]
  constructor
  · intro h
    obtain ⟨ts, hts, hall, ht⟩ := h
    exact ⟨⟨ts, hts, hall⟩, ht⟩
  · intro h
    obtain ⟨⟨ts, hts, hall⟩, ht⟩ := h
    exact ⟨ts, hts, hall, ht⟩

theorem evalBool_guard_false : (Dnf.toTerm (f.map (· ++ [t]))).evalBool env = some false ↔
    f.toTerm.evalBool env = some false ∨ t.evalBool env = some false := by
  simp only [evalBool_eq_false_iff, List.forall_mem_map, List.mem_append, List.mem_singleton]
  by_cases ht : t.evalBool env = some false
  · simp only [ht, or_true, iff_true]
    exact fun ts _ => ⟨t, .inr rfl, ht⟩
  · simp only [ht, or_false]
    refine forall₂_congr fun ts _ => exists_congr fun u => and_congr_left fun hu => ?_
    exact or_iff_left fun heq => ht (heq ▸ hu)

/-- Of two formulas guarded by a predicate and its complement, the one whose guard holds decides,
also where the other has no truth value. -/
theorem evalBool_branches {b : Bool} (ht : t.evalBool env = some b) :
    (Dnf.toTerm (f.map (· ++ [t]) ++ g.map (· ++ [t.complement]))).evalBool env =
      (if b = true then f else g).toTerm.evalBool env := by
  have hcomplement : t.complement.evalBool env = some !b := by
    rw [Term.evalBool_complement, ht]
    rfl
  ext c
  cases c with
  | true =>
    rw [evalBool_append_true, evalBool_guard_true, evalBool_guard_true, ht, hcomplement]
    cases b with
    | true => simp
    | false => simp
  | false =>
    rw [evalBool_append_false, evalBool_guard_false, evalBool_guard_false, ht, hcomplement]
    cases b with
    | true => simp
    | false => simp

end Dnf

/-! ## Trees and their formulas -/

def Decision.predicates : Decision → List Term
  | sites _ => []
  | value t => [t]

namespace DecisionTree

/-- Where the formula of a tree has a truth value, the tree sorts by it. -/
theorem classify_of_formula {tree : DecisionTree} {p : Datapoint} {b : Bool}
    (h : (tree.candidates.formula p.site).evalBool p.valuation.get? = some b) :
    tree.classify p = some b := by
  induction tree generalizing b with
  | leaf inside =>
    cases inside with
    | true => exact h
    | false => exact h
  | node decision yes no ihyes ihno =>
    rw [classify]
    cases decision with
    | sites s =>
      rw [candidates, Candidates.formula, Candidates.dnf_select] at h
      rw [Decision.eval]
      cases hmem : s.contains p.site with
      | true =>
        rw [if_pos (SortedSet.contains_iff_mem_toList.1 hmem)] at h
        exact ihyes h
      | false =>
        rw [if_neg (by simp [← SortedSet.contains_iff_mem_toList, hmem])] at h
        exact ihno h
    | value t =>
      rw [candidates, Candidates.formula, Candidates.dnf_or, Candidates.dnf_guard,
        Candidates.dnf_guard] at h
      rw [Decision.eval]
      cases ht : t.evalBool p.valuation.get? with
      | some c =>
        rw [Dnf.evalBool_branches ht] at h
        cases c with
        | true => exact ihyes h
        | false => exact ihno h
      | none =>
        have hcomplement : t.complement.evalBool p.valuation.get? = none := by
          rw [Term.evalBool_complement, ht]
          rfl
        cases b with
        | true => simp [Dnf.evalBool_append_true, Dnf.evalBool_guard_true, ht, hcomplement] at h
        | false =>
          -- neither guard is false, so both sides are
          rw [Dnf.evalBool_append_false, Dnf.evalBool_guard_false, Dnf.evalBool_guard_false, ht,
            hcomplement] at h
          rw [ihyes (h.1.resolve_right nofun), ihno (h.2.resolve_right nofun)]
          rfl

/-- The predicates that are looked at while a datapoint is sorted. Where one of them cannot be told,
both sides are looked at. -/
def tested : DecisionTree → Datapoint → List Term
  | leaf _, _ => []
  | node d yes no, p =>
    d.predicates ++
      match d.eval p with
      | some true => yes.tested p
      | some false => no.tested p
      | none => yes.tested p ++ no.tested p

theorem exists_formula_of_tested {tree : DecisionTree} {p : Datapoint}
    (h : ∀ t ∈ tree.tested p, ∃ b, t.evalBool p.valuation.get? = some b) :
    ∃ b, (tree.candidates.formula p.site).evalBool p.valuation.get? = some b := by
  induction tree with
  | leaf inside =>
    cases inside with
    | true => exact ⟨true, rfl⟩
    | false => exact ⟨false, rfl⟩
  | node decision yes no ihyes ihno =>
    rw [tested] at h
    cases decision with
    | sites s =>
      rw [candidates, Candidates.formula, Candidates.dnf_select]
      rw [Decision.eval] at h
      cases hmem : s.contains p.site with
      | true =>
        rw [hmem] at h
        rw [if_pos (SortedSet.contains_iff_mem_toList.1 hmem)]
        exact ihyes h
      | false =>
        rw [hmem] at h
        rw [if_neg (by simp [← SortedSet.contains_iff_mem_toList, hmem])]
        exact ihno h
    | value t =>
      obtain ⟨b, hb⟩ := h t (List.mem_append_left _ (List.mem_singleton_self t))
      rw [candidates, Candidates.formula, Candidates.dnf_or, Candidates.dnf_guard,
        Candidates.dnf_guard, Dnf.evalBool_branches hb]
      have hside := fun u hu => h u (List.mem_append_right _ hu)
      rw [Decision.eval, hb] at hside
      cases b with
      | true => exact ihyes hside
      | false => exact ihno hside

end DecisionTree

/-- A tree and its formula agree. Where the formula has a truth value, the tree sorts by it. Where all
predicates on the way of a datapoint have truth values, the formula has one too, whatever the
predicates elsewhere in the tree. -/
theorem tree_agrees_with_formula (tree : DecisionTree) (site : Loc) (v : Valuation) :
    (∀ b, (tree.candidates.formula site).evalBool v.get? = some b →
      tree.classify ⟨site, v⟩ = some b) ∧
    ((∀ t ∈ tree.tested ⟨site, v⟩, ∃ b, t.evalBool v.get? = some b) →
      (tree.candidates.formula site).evalBool v.get? = tree.classify ⟨site, v⟩ ∧
        ∃ b, tree.classify ⟨site, v⟩ = some b) := by
  have hsorted : ∀ b, (tree.candidates.formula site).evalBool v.get? = some b →
      tree.classify ⟨site, v⟩ = some b :=
    fun b h => DecisionTree.classify_of_formula (p := ⟨site, v⟩) h
  refine ⟨hsorted, fun htested => ?_⟩
  obtain ⟨b, hb⟩ := DecisionTree.exists_formula_of_tested htested
  have hclass := hsorted b hb
  exact ⟨hb.trans hclass.symm, b, hclass⟩

/-- Above 2 the tree asks for the sign of `y` in vain, and below it tells the sites apart. -/
def signTree : DecisionTree :=
  .node (.value (.rel .gt (.var "x") (.int 2)))
    (.node (.value (.rel .lt (.var "y") (.int 0))) (.leaf true) (.leaf true))
    (.node (.sites (.ofList [0])) (.leaf true) (.leaf false))

/-- With `y` left open, the side that is looked at tells the formula. -/
theorem signTree_formula :
    signTree.tested ⟨0, .ofList [("x", .int 1)]⟩ = [.rel .gt (.var "x") (.int 2)] ∧
      (signTree.candidates.formula 0).evalBool (SortedMap.ofList [("x", .int 1)]).get? =
        some true := by
  have htested : signTree.tested ⟨0, .ofList [("x", .int 1)]⟩ = [.rel .gt (.var "x") (.int 2)] := rfl
  have htold : ∀ t ∈ signTree.tested ⟨0, .ofList [("x", .int 1)]⟩,
      ∃ b, t.evalBool (SortedMap.ofList [("x", .int 1)]).get? = some b := by
    rw [htested, List.forall_mem_singleton]
    exact ⟨false, by decide +kernel⟩
  obtain ⟨hagree, -⟩ := (tree_agrees_with_formula signTree 0 (.ofList [("x", .int 1)])).2 htold
  exact ⟨htested, hagree.trans (by decide +kernel)⟩

/-- A formula may be open where the tree is not: both sides of an open predicate agree. -/
example : signTree.classify ⟨0, .ofList [("x", .int 3)]⟩ = some true ∧
    (signTree.candidates.formula 0).evalBool (SortedMap.ofList [("x", .int 3)]).get? = none := by
  decide +kernel

/-! ## What a grown tree is worth -/

namespace TreeLearner

open Knowledge

variable {learner : TreeLearner} {k n : Knowledge} {points : List Datapoint} {polarity : Bool}

/-- A set that gets one label: none of its datapoints has the other, and those without a label are
guessed to have it. -/
theorem labelAll?_eq_some (h : labelAll? k points polarity = some n) :
    (∀ p ∈ points, ¬k.HasLabel false p !polarity) ∧
      k.assume ((points.filter fun p => (k.label? p).isNone).map
        (if polarity = true then .assumeTrue else .assumeFalse)) = .ok n := by
  have hfalse : ∀ d, k.isFalse d = true ↔ k.HasLabel false d false := by
    intro d
    rw [isFalse_iff, hasLabel_false]
  rw [labelAll?] at h
  simp only at h
  cases polarity with
  | true =>
    simp only [if_true] at h
    split at h
    · cases h
    · next hopposed =>
      simp only [List.any_eq_true, not_exists, not_and, hfalse] at hopposed
      exact ⟨hopposed, toOption_eq_some_iff.1 h⟩
  | false =>
    simp only [Bool.false_eq_true, if_false] at h
    split at h
    · cases h
    · next hopposed =>
      simp only [List.any_eq_true, not_exists, not_and, isTrue_iff_hasLabel] at hopposed
      exact ⟨hopposed, toOption_eq_some_iff.1 h⟩

/-- A tree with what is taken for granted once it is grown. -/
structure Grown (k : Knowledge) (points : List Datapoint) (tree : DecisionTree) (n : Knowledge) :
    Prop where
  reachable : n.Reachable
  subset : ∀ c ∈ k.constraints, c ∈ n.constraints
  sorted : ∀ p ∈ points, ∃ b, tree.classify p = some b ∧ n.HasLabel false p b

theorem grown_leaf (hk : k.Reachable) (h : labelAll? k points polarity = some n) :
    Grown k points (.leaf polarity) n := by
  obtain ⟨hopposed, hassume⟩ := labelAll?_eq_some h
  obtain ⟨hn, hmem⟩ := hk.assume hassume
  have hsub : ∀ c ∈ k.constraints, c ∈ n.constraints := fun c hc => (hmem c).2 (.inl hc)
  refine ⟨hn, hsub, fun p hp => ⟨polarity, rfl, ?_⟩⟩
  cases hl : k.label? p with
  | some l =>
    refine hk.hasLabel_mono hn hsub ⟨l, hl, ?_, nofun⟩
    by_contra hne
    exact hopposed p hp ⟨l, hl, Bool.eq_not.2 hne, nofun⟩
  | none =>
    have hopened : p ∈ points.filter fun p => (k.label? p).isNone :=
      List.mem_filter.2 ⟨hp, by rw [hl]; rfl⟩
    have hguess := (hmem _).2 (.inr (List.mem_map_of_mem hopened))
    apply hn.obeyed (counts_of_mem hguess)
    cases polarity with
    | true => simp [Constraint.Forces, Constraint.assumeTrue]
    | false => simp [Constraint.Forces, Constraint.assumeFalse]

theorem grown_leaf? {inside : Bool} (hk : k.Reachable) (h : leaf? k points = some (inside, n)) :
    Grown k points (.leaf inside) n := by
  rw [leaf?, Option.or_eq_some_iff] at h
  rcases h with h | ⟨-, h⟩
  · obtain ⟨_, hn, heq⟩ := Option.map_eq_some_iff.1 h
    cases heq
    exact grown_leaf hk hn
  · obtain ⟨_, hn, heq⟩ := Option.map_eq_some_iff.1 h
    cases heq
    exact grown_leaf hk hn

theorem mem_of_split {s : Split} (h : learner.split k points = .ok s) {p : Datapoint}
    (hp : p ∈ points) :
    (s.decision.eval p ≠ some false → p ∈ s.yes) ∧ (s.decision.eval p ≠ some true → p ∈ s.no) := by
  rw [split] at h
  simp only at h
  split at h
  · cases h
    simp [Decision.eval, List.mem_filter, hp]
  · split at h
    · next hbest =>
      cases h
      obtain ⟨t, -, hsplit⟩ := List.mem_filterMap.1 (mem_of_best? hbest)
      rw [splitOn?] at hsplit
      simp only at hsplit
      split at hsplit
      · cases hsplit
        simp [Decision.eval, partition, List.mem_filter, hp]
      · cases hsplit
    · cases h

theorem grown_node {s : Split} {yes no : DecisionTree} {m : Knowledge}
    (hsplit : learner.split k points = .ok s) (hyes : Grown k s.yes yes m) (hno : Grown m s.no no n) :
    Grown k points (.node s.decision yes no) n := by
  refine ⟨hno.reachable, fun c hc => hno.subset c (hyes.subset c hc), fun p hp => ?_⟩
  obtain ⟨hmem, hmem'⟩ := mem_of_split hsplit hp
  have hkept : ∀ b, m.HasLabel false p b → n.HasLabel false p b :=
    fun b => hyes.reachable.hasLabel_mono hno.reachable hno.subset
  rw [DecisionTree.classify]
  cases heval : s.decision.eval p with
  | some b =>
    rw [heval] at hmem hmem'
    cases b with
    | true =>
      obtain ⟨b, hb, hlabel⟩ := hyes.sorted p (hmem (by simp))
      exact ⟨b, hb, hkept b hlabel⟩
    | false => exact hno.sorted p (hmem' (by simp))
  | none =>
    -- on both sides the datapoint is sorted by its label in the end
    rw [heval] at hmem hmem'
    obtain ⟨b, hb, hlabel⟩ := hyes.sorted p (hmem nofun)
    obtain ⟨b', hb', hlabel'⟩ := hno.sorted p (hmem' nofun)
    cases (hkept b hlabel).unique hlabel'
    exact ⟨b, by simp [hb, hb'], hlabel'⟩

theorem grown_of_grow {depth : Nat} {tree : DecisionTree} (hk : k.Reachable)
    (h : learner.grow depth k points = .ok (tree, n)) : Grown k points tree n := by
  induction depth generalizing k points tree n with
  | zero => cases h
  | succ depth ih =>
    rw [grow] at h
    split at h
    · next hleaf =>
      cases h
      exact grown_leaf? hk hleaf
    · split at h
      · cases h
      · next s hsplit =>
        split at h
        · cases h
        · next yes m hyes =>
          split at h
          · cases h
          · next no m' hno =>
            cases h
            have hgrown := ih hk hyes
            exact grown_node hsplit hgrown (ih hgrown.reachable hno)

theorem exists_grown_of_learn {tree : DecisionTree} (hk : k.Reachable)
    (h : learner.learn k = .ok tree) : ∃ n, Grown k k.datapoints tree n := by
  obtain ⟨⟨tree, n⟩, hgrow, rfl⟩ := map_eq_ok.1 h
  exact ⟨n, grown_of_grow hk hgrow⟩

/-- A label stays what it is while a tree is grown, and the tree sorts by it. -/
theorem classify_of_label {tree : DecisionTree} (hk : k.Reachable) (h : learner.learn k = .ok tree)
    {d : Datapoint} {l : Label} (hl : k.label? d = some l) : tree.classify d = some l.polarity := by
  obtain ⟨n, hgrown⟩ := exists_grown_of_learn hk h
  have hkept : n.HasLabel false d l.polarity :=
    hk.hasLabel_mono hgrown.reachable hgrown.subset ⟨l, hl, rfl, nofun⟩
  obtain ⟨b, hb, hlabel⟩ := hgrown.sorted d (hk.saturated.tracked.labelled_mem d l hl)
  rw [hb, hlabel.unique hkept]

/-- A tree that is learned meets every constraint. -/
theorem meets_of_learn {tree : DecisionTree} (hk : k.Reachable) (h : learner.learn k = .ok tree)
    {c : Constraint} (hc : c ∈ k.constraints) : c.Meets fun p => tree.classify p = some true := by
  obtain ⟨n, hgrown⟩ := exists_grown_of_learn hk h
  intro hsources
  have hmentioned : ∀ d ∈ c.datapoints, ∃ b, tree.classify d = some b ∧ n.HasLabel false d b :=
    fun d hd => hgrown.sorted d (hk.saturated.mentioned c hc d hd)
  have htrue : ∀ s ∈ c.sources, n.HasLabel false s true := by
    intro s hs
    obtain ⟨b, hb, hlabel⟩ := hmentioned s (source_mem_datapoints hs)
    cases hb.symm.trans (hsources s hs)
    exact hlabel
  obtain ⟨T, hT, hmeets⟩ := hgrown.reachable.saturated.exists_model
  have hright := hgrown.reachable.respects hT hmeets
  obtain ⟨t, ht, -⟩ := hmeets c (hgrown.subset c hc) fun s hs =>
    hright.of_isTrue (isTrue_iff_hasLabel.2 (htrue s hs))
  have hcounts := counts_of_mem (hgrown.subset c hc)
  have hlabel := hgrown.reachable.obeyed hcounts t true ⟨ht, htrue⟩
  obtain ⟨b, hb, hlabel'⟩ := hmentioned t (target_mem_datapoints ht)
  cases hlabel.unique hlabel'
  exact ⟨t, ht, hb⟩

end TreeLearner

/-- A tree that is learned respects everything known. It sorts every registered datapoint, also one
that leaves variables open, it sorts by the labels, and what it sorts inside meets every constraint:
where all sources are inside, there is a target and it is inside. -/
theorem learned_tree_respects_knowledge {k : Knowledge} {learner : TreeLearner}
    {tree : DecisionTree} (hk : k.Reachable) (h : learner.learn k = .ok tree) :
    (∀ d ∈ k.datapoints, ∃ b, tree.classify d = some b) ∧
      (∀ d l, k.label? d = some l → tree.classify d = some l.polarity) ∧
      ∀ c ∈ k.constraints, (∀ s ∈ c.sources, tree.classify s = some true) →
        ∃ t, c.target = some t ∧ tree.classify t = some true := by
  obtain ⟨n, hgrown⟩ := TreeLearner.exists_grown_of_learn hk h
  refine ⟨fun d hd => ?_, fun d l => TreeLearner.classify_of_label hk h,
    fun c => TreeLearner.meets_of_learn hk h⟩
  obtain ⟨b, hb, -⟩ := hgrown.sorted d hd
  exact ⟨b, hb⟩

def openValues : Except Contradiction Nat × Knowledge :=
  Knowledge.insertAll {} [⟨[], some ⟨0, .ofList [("x", .int 1)]⟩, .clause 0⟩,
    ⟨[⟨0, .ofList [("x", .int 1), ("y", .int 3)]⟩],
      some ⟨0, .ofList [("x", .int 2), ("y", .int 3)]⟩, .clause 1⟩,
    ⟨[⟨0, .ofList [("x", .int 5)]⟩], none, .clause 2⟩]

/-- The step applies to the part of the reached state where `y` is 3. -/
theorem openValues_learned :
    ∃ tree, TreeLearner.learn { decls := [⟨"x", .int⟩, ⟨"y", .int⟩] } openValues.2 = .ok tree ∧
      tree.classify ⟨0, .ofList [("x", .int 1)]⟩ = some true ∧
      tree.classify ⟨0, .ofList [("x", .int 2), ("y", .int 3)]⟩ = some true ∧
      tree.classify ⟨0, .ofList [("x", .int 5)]⟩ = some false := by
  have hadded : openValues.1.toOption = some 3 := by decide +kernel
  have hk : openValues.2.Reachable :=
    (Knowledge.Reachable.empty.insertAll (Prod.ext (toOption_eq_some_iff.1 hadded) rfl)).1
  have hlearned : (TreeLearner.learn { decls := [⟨"x", .int⟩, ⟨"y", .int⟩] }
      openValues.2).toOption.isSome = true := by decide +kernel
  obtain ⟨tree, htree⟩ := Option.isSome_iff_exists.1 hlearned
  have htree := toOption_eq_some_iff.1 htree
  obtain ⟨-, hlabels, -⟩ := learned_tree_respects_knowledge hk htree
  have hlabel : ∀ d b, (openValues.2.label? d).map (·.polarity) = some b →
      tree.classify d = some b := by
    intro d b hb
    obtain ⟨l, hl, rfl⟩ := Option.map_eq_some_iff.1 hb
    exact hlabels d l hl
  exact ⟨tree, htree, hlabel _ _ (by decide +kernel), hlabel _ _ (by decide +kernel),
    hlabel _ _ (by decide +kernel)⟩

end LoopInvariant
