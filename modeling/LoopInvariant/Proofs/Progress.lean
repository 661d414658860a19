import LoopInvariant.Proofs.Classification
import LoopInvariant.Proofs.Verdict
import Mathlib.Data.Fintype.BigOperators
/-!
# Every round makes progress

A counterexample refutes the candidates: its source is inside their formula and its target is not.
The tree behind the candidates sorts both as its formula says. It meets every constraint that is
known, so the counterexample is none of them.

There are finitely many constraints to report, since each is a clause with at most two valuations of
the declared variables. So rounds come to an end, and their bound is never reached.
-/

namespace LoopInvariant

/-! ## Counterexamples refute candidates -/

/-- Values that a search found count after projection, for declared variables. -/
theorem Candidates.evalIn_project {names : List String} {ix : Indexing} {found m : Valuation}
    (hfound : ∀ x a, found.get? (ix.name x) = some a → x ∈ names ∧ m.get? (ix.name x) = some a)
    {cs : Candidates} {p : Endpoint} {b : Bool}
    (h : cs.evalIn (fun x => found.get? (ix.name x)) p = some b) :
    cs.evalIn (Clause.project names ix m).get? p = some b := by
  cases p with
  | entry => exact h
  | error => exact h
  | head l =>
    refine Term.evalBool_mono (fun x a hx => ?_) h
    obtain ⟨hmem, hm⟩ := hfound x a hx
    rw [Clause.get?_project hmem, hm]

/-- Candidates hold at the sources of a constraint and not at its target. -/
structure Candidates.RefutedBy (cs : Candidates) (k : Constraint) : Prop where
  sources : ∀ p ∈ k.sources, (cs.formula p.site).evalBool p.valuation.get? = some true
  target : ∀ p, k.target = some p → (cs.formula p.site).evalBool p.valuation.get? = some false

theorem Clause.refutedBy_counterexample {decls : List VarDecl} {radius : Nat} {s : BoundedSession}
    (hplain : ∀ d ∈ decls, '@' ∉ d.name.toList) (hs : s.Fresh (.ofDecls decls) radius) {c : Clause}
    {cs : Candidates} {m : Valuation}
    (hmodel : (Session.modelOf (c.violation cs) (c.observed (decls.map (·.name))) s).1 =
      .ok (some m)) (i : Nat) :
    cs.RefutedBy (c.counterexample i (decls.map (·.name)) m) := by
  obtain ⟨found, -, htrue, hsorts, hvalues⟩ := hs.exists_found hmodel
  obtain ⟨hpre, -, hpost⟩ := (c.evalBool_violation_env cs found.get?).1 htrue
  have hdeclared : ∀ {ix : Indexing} {x a}, found.get? (ix.name x) = some a →
      x ∈ decls.map (·.name) := by
    intro ix x a hx
    obtain ⟨sort, hsort⟩ := hsorts _ _ hx
    have hget := get?_of_sortOf?_versioned (fun y hy => ?_) hsort
    · exact List.mem_map_of_mem (Signature.mem_of_get?_ofDecls hget)
    · obtain ⟨_, hy⟩ := Option.isSome_iff_exists.1 hy
      exact hplain _ (Signature.mem_of_get?_ofDecls hy)
  have hshown : ∀ {y a}, y ∈ c.observed (decls.map (·.name)) → found.get? y = some a →
      m.get? y = some a := by
    intro y a hy ha
    rw [hvalues y hy, BoundedSession.fill, ha, Option.getD_some]
  constructor
  · intro p hp
    obtain ⟨l, hl, rfl⟩ := mem_sources_counterexample hp
    rw [hl] at hpre
    refine Candidates.evalIn_project (p := .head l) (fun x a hx => ?_) hpre
    exact ⟨hdeclared hx, hshown (mem_observed_of_pre hl (hdeclared hx)) hx⟩
  · intro p hp
    obtain ⟨l, hl, rfl⟩ := target_counterexample hp
    rw [hl] at hpost
    refine Candidates.evalIn_project (p := .head l) (fun x a hx => ?_) hpost
    exact ⟨hdeclared hx, hshown (mem_observed_of_post hl (hdeclared hx)) hx⟩

theorem TreeLearner.not_mem_of_refutedBy {l : TreeLearner} {k : Knowledge} {tree : DecisionTree}
    (hk : k.Reachable) (hlearn : l.learn k = .ok tree) {c : Constraint}
    (hc : tree.candidates.RefutedBy c) : c ∉ k.constraints := by
  intro hmem
  obtain ⟨t, ht, hclassify⟩ := meets_of_learn hk hlearn hmem fun p hp =>
    DecisionTree.classify_of_formula (hc.sources p hp)
  rw [DecisionTree.classify_of_formula (hc.target t ht)] at hclassify
  cases hclassify

/-! ## Learners that ask trees -/

namespace Learner

def OfTrees (ts : List TreeLearner) : Learner → Prop
  | tree t => ts = [t]
  | fallback ms => ms = ts.map tree
  | roundRobin ms _ => ms = ts.map tree
  | scripted _ _ => False

structure Suggests {ε : Type} (ts : List TreeLearner) (k : Knowledge) (r : Except ε Candidates) :
    Prop where
  exists_tree : ∀ cs, r = .ok cs → ∃ t ∈ ts, ∃ tree, t.learn k = .ok tree ∧ cs = tree.candidates
  succeeds : ∀ t ∈ ts, ∀ tree, t.learn k = .ok tree → ∃ cs, r = .ok cs

theorem withCalls_eq_map (ms : List Learner) : withCalls ms = ms.map fun l => (l, call l) := by
  induction ms with
  | nil => rfl
  | cons l ms ih => rw [withCalls, ih, List.map_cons]

theorem Suggests.mapError {ε ε' : Type} {ts : List TreeLearner} {k : Knowledge}
    {r : Except ε Candidates} (h : Suggests ts k r) (f : ε → ε') :
    Suggests ts k (r.mapError f) := by
  cases r with
  | error e =>
    refine ⟨nofun, fun t ht tree hlearn => ?_⟩
    obtain ⟨cs, hcs⟩ := h.succeeds t ht tree hlearn
    cases hcs
  | ok cs =>
    refine ⟨fun cs' hcs' => ?_, fun _ _ _ _ => ⟨cs, rfl⟩⟩
    cases hcs'
    exact h.exists_tree cs rfl

theorem inOrder_trees (k : Knowledge) (ts : List TreeLearner) :
    (inOrder k (withCalls (ts.map tree))).members = ts.map tree ∧
      Suggests ts k (inOrder k (withCalls (ts.map tree))).suggestion := by
  induction ts with
  | nil => exact ⟨rfl, nofun, nofun⟩
  | cons t ts ih =>
    obtain ⟨hmembers, hsuggests⟩ := ih
    rw [List.map_cons, withCalls, inOrder, call]
    cases hlearn : t.learn k with
    | ok tree =>
      refine ⟨?_, fun cs hcs => ?_, fun _ _ _ _ => ⟨_, rfl⟩⟩
      · simp [withCalls_eq_map, Except.map]
      · cases hcs
        exact ⟨t, List.mem_cons_self, tree, hlearn, rfl⟩
    | error e =>
      simp only [Except.map, hmembers, true_and]
      have hrest := hsuggests.mapError (((tree t).name ++ ": " ++ e.reason) :: ·)
      refine ⟨fun cs hcs => ?_, fun t' ht' tree htree => ?_⟩
      · obtain ⟨t', ht', htree⟩ := hrest.exists_tree cs hcs
        exact ⟨t', List.mem_cons_of_mem _ ht', htree⟩
      · rcases List.mem_cons.1 ht' with rfl | ht'
        · cases hlearn.symm.trans htree
        · exact hrest.succeeds t' ht' tree htree

/-- A learner that asks trees goes on to do so, and suggests what one of them learns. -/
theorem OfTrees.call {ts : List TreeLearner} {l : Learner} (h : OfTrees ts l) (k : Knowledge) :
    OfTrees ts (l.call k).learner ∧ Suggests ts k (l.call k).suggestion := by
  cases l with
  | tree t =>
    subst h
    rw [Learner.call]
    refine ⟨rfl, fun cs hcs => ?_, fun t' ht' tree htree => ?_⟩
    · obtain ⟨tree, htree, rfl⟩ := map_eq_ok.1 hcs
      exact ⟨t, List.mem_cons_self, tree, htree, rfl⟩
    · cases List.mem_singleton.1 ht'
      exact ⟨tree.candidates, by simp [htree, Except.map]⟩
  | fallback ms =>
    subst h
    obtain ⟨hmembers, hsuggests⟩ := inOrder_trees k ts
    rw [Learner.call]
    exact ⟨hmembers, hsuggests.mapError _⟩
  | roundRobin ms next =>
    subst h
    have hrotated : (withCalls (ts.map tree)).drop next ++ (withCalls (ts.map tree)).take next =
        withCalls ((ts.drop next ++ ts.take next).map tree) := by
      simp [withCalls_eq_map, List.map_drop, List.map_take]
    obtain ⟨hmembers, hsuggests⟩ := inOrder_trees k (ts.drop next ++ ts.take next)
    rw [Learner.call]
    simp only [hrotated]
    refine ⟨?_, ?_⟩
    · -- the members are turned back to where they were
      have hlength : (withCalls (ts.map tree)).length - next = (ts.drop next).length := by
        simp [withCalls_eq_map]
      rw [hmembers, hlength, ← List.map_drop, ← List.map_take, List.drop_left, List.take_left,
        ← List.map_append, List.take_append_drop]
      rfl
    · have hmem : ∀ t, t ∈ ts.drop next ++ ts.take next ↔ t ∈ ts := by
        intro t
        rw [List.mem_append, or_comm, ← List.mem_append, List.take_append_drop]
      apply Suggests.mapError
      refine ⟨fun cs hcs => ?_, fun t ht => hsuggests.succeeds t ((hmem t).2 ht)⟩
      obtain ⟨t, ht, htree⟩ := hsuggests.exists_tree cs hcs
      exact ⟨t, (hmem t).1 ht, htree⟩
  | scripted name script => cases h

end Learner

def InferenceConfig.trees (c : InferenceConfig) (s : ClauseSystem) : List TreeLearner :=
  if c.useAtoms then
    [{ decls := s.decls, useValues := false, atoms := s.atoms },
      { decls := s.decls, atoms := s.atoms }]
  else [{ decls := s.decls }]

theorem InferenceConfig.ofTrees_learner (c : InferenceConfig) (s : ClauseSystem) (number : Nat) :
    (c.learner s number).OfTrees (c.trees s) := by
  rw [learner, trees]
  split
  · split
    · rfl
    · rfl
  · rfl

/-! ## Knowledge grows -/

namespace Knowledge

variable {k k' : Knowledge} {c : Constraint} {cs : List Constraint}

theorem Reachable.size_insertAll {n : Nat} (h : k.Reachable)
    (hrun : k.insertAll cs = (.ok n, k')) : k'.size = k.size + n := by
  induction cs generalizing k n with
  | nil =>
    cases hrun
    rfl
  | cons c cs ih =>
    rw [Knowledge.insertAll] at hrun
    split at hrun
    · cases hrun
    · next added next hinsert =>
      rw [Prod.mk.injEq, map_eq_ok] at hrun
      obtain ⟨⟨m, hm, rfl⟩, hlast⟩ := hrun
      rw [ih (h.insert hinsert) (Prod.ext hm hlast)]
      rcases h.saturated.constraints_insert hinsert with ⟨rfl, rfl, -⟩ | ⟨rfl, -, hpush⟩
      · rfl
      · rw [size, hpush, Array.size_push, size]
        exact Nat.add_right_comm ..

theorem Reachable.insertAll_pos {n : Nat} (h : k.Reachable)
    (hrun : k.insertAll (c :: cs) = (.ok n, k')) (hc : c ∉ k.constraints) : 0 < n := by
  rw [Knowledge.insertAll] at hrun
  split at hrun
  · cases hrun
  · next added next hinsert =>
    rw [Prod.mk.injEq, map_eq_ok] at hrun
    obtain ⟨⟨m, -, rfl⟩, -⟩ := hrun
    rcases h.saturated.constraints_insert hinsert with ⟨-, -, hmem⟩ | ⟨rfl, -, -⟩
    · exact absurd hmem hc
    · exact Nat.succ_pos m

end Knowledge

/-! ## Constraints to report -/

namespace ClauseSystem

theorem plain_decls {description : Description} {a : Automaton} {s : ClauseSystem}
    (ha : Automaton.ofDescription description = .ok a) (hs : ofAutomaton a = .ok s) :
    ∀ d ∈ s.decls, '@' ∉ d.name.toList := by
  obtain ⟨_, -, hencodes⟩ := encodes_of_ofAutomaton hs
  have hwf := Automaton.wellFormed_of_ofDescription ha
  intro d hd
  rw [decls, hencodes.automaton_eq] at hd
  exact hwf.plain _ (List.mem_map_of_mem hd)

variable {s : ClauseSystem} {P : BoundedSession → Prop} {ts : List TreeLearner}

/-- A constraint that is reported on what one of some trees learned, with some session. -/
def Reportable (s : ClauseSystem) (P : BoundedSession → Prop) (ts : List TreeLearner)
    (x : Constraint) : Prop :=
  ∃ t ∈ ts, ∃ k tree, t.learn k = .ok tree ∧
    ∃ c i m session, (c, i) ∈ s.clauses.zipIdx ∧ P session ∧
      (Session.modelOf (c.violation tree.candidates) (c.observed (s.decls.map (·.name)))
        session).1 = .ok (some m) ∧
      x = c.counterexample i (s.decls.map (·.name)) m

/-- What a variable may be observed to be. -/
def observations : Finset (Option Value) :=
  {none, some (.bool false), some (.bool true)} ∪
    (Finset.range 18446744073709551616).image fun n =>
      some (.int (Int64.ofBitVec (BitVec.ofNat 64 n)))

theorem mem_observations (a : Option Value) : a ∈ observations := by
  rw [observations, Finset.mem_union, Finset.mem_image]
  rcases a with _ | b | i
  · exact .inl (by simp)
  · exact .inl (by cases b <;> simp)
  · refine .inr ⟨i.toBitVec.toNat, Finset.mem_range.2 i.toBitVec.isLt, ?_⟩
    rw [BitVec.ofNat_toNat, BitVec.setWidth_eq, Int64.ofBitVec_toBitVec]

theorem card_observations_le : observations.card ≤ 18446744073709551619 := by
  have himage : ((Finset.range 18446744073709551616).image fun n =>
      some (Value.int (Int64.ofBitVec (BitVec.ofNat 64 n)))).card ≤ 18446744073709551616 :=
    Finset.card_image_le.trans (Finset.card_range _).le
  have hsmall : ({none, some (.bool false), some (.bool true)} : Finset (Option Value)).card ≤ 3 :=
    Finset.card_le_three
  refine (Finset.card_union_le _ _).trans ?_
  omega

def valuationOf (names : List String) (f : Fin names.length → Option Value) : Valuation :=
  SortedMap.ofList ((List.finRange names.length).filterMap fun j =>
    (f j).map fun a => (names.get j, a))

theorem project_eq_valuationOf (names : List String) (ix : Indexing) (m : Valuation) :
    Clause.project names ix m = valuationOf names fun j => m.get? (ix.name (names.get j)) := by
  rw [Clause.project, valuationOf]
  congr 1
  conv_lhs => rw [← List.map_get_finRange names]
  rw [List.filterMap_map]
  rfl

/-- The constraint of a clause with a valuation before and one after. -/
def constraintOf (s : ClauseSystem) (i : Nat) (before after : Valuation) : Constraint where
  sources := (s.clauses[i]?.bind (·.pre.head?)).toList.map fun l => ⟨l, before⟩
  target := (s.clauses[i]?.bind (·.post.head?)).map fun l => ⟨l, after⟩
  origin := .clause i

/-- All constraints that may be reported, and some more. -/
def reportable (s : ClauseSystem) : Finset Constraint :=
  let valuations := Fintype.piFinset fun _ : Fin (s.decls.map (·.name)).length => observations
  (Finset.range s.clauses.length ×ˢ valuations ×ˢ valuations).image fun x =>
    s.constraintOf x.1 (valuationOf _ x.2.1) (valuationOf _ x.2.2)

theorem Reportable.mem {x : Constraint} (h : s.Reportable P ts x) : x ∈ s.reportable := by
  obtain ⟨-, -, -, -, -, c, i, m, -, hmem, -, -, rfl⟩ := h
  have hi := List.mk_mem_zipIdx_iff_getElem?.1 hmem
  refine Finset.mem_image.2 ⟨⟨i, fun j => m.get? (Indexing.initial.name (List.get _ j)),
    fun j => m.get? (c.indexing.name (List.get _ j))⟩, ?_, ?_⟩
  · simp only [Finset.mem_product, Finset.mem_range, Fintype.mem_piFinset]
    exact ⟨(List.getElem?_eq_some_iff.1 hi).1, fun j => mem_observations _,
      fun j => mem_observations _⟩
  · rw [Clause.counterexample, constraintOf, hi, project_eq_valuationOf, project_eq_valuationOf]
    rfl

theorem card_reportable_lt (s : ClauseSystem) : s.reportable.card < Coordinator.roundBound s := by
  refine Nat.lt_succ_of_le (Finset.card_image_le.trans ?_)
  rw [Finset.card_product, Finset.card_product, Finset.card_range, Fintype.card_piFinset_const,
    List.length_map, Nat.pow_eq, Nat.two_mul, Nat.pow_add]
  have hpow : observations.card ^ s.decls.length ≤ 18446744073709551619 ^ s.decls.length :=
    Nat.pow_le_pow_left card_observations_le _
  exact Nat.mul_le_mul_left _ (Nat.mul_le_mul hpow hpow)

theorem size_lt_roundBound {k : Knowledge} (hk : k.Reachable)
    (h : ∀ c ∈ k.constraints, s.Reportable P ts c) : k.size < Coordinator.roundBound s := by
  have hsub : k.constraints.toList.toFinset ⊆ s.reportable := by
    intro c hc
    exact (h c (Array.mem_toList_iff.1 (List.mem_toFinset.1 hc))).mem
  have hcard := Finset.card_le_card hsub
  rw [List.toFinset_card_of_nodup hk.nodup, Array.length_toList] at hcard
  exact Nat.lt_of_le_of_lt hcard (card_reportable_lt s)

end ClauseSystem

/-! ## Rounds -/

namespace Coordinator

variable {s : ClauseSystem} {radius : Nat} {P : BoundedSession → Prop} {ts : List TreeLearner}
variable {c : Coordinator BoundedSession}

structure Underway (s : ClauseSystem) (P : BoundedSession → Prop) (ts : List TreeLearner)
    (c : Coordinator BoundedSession) : Prop where
  system_eq : c.system = s
  learner : c.learner.OfTrees ts
  session : P c.session
  reachable : c.knowledge.Reachable
  reportable : ∀ x ∈ c.knowledge.constraints, s.Reportable P ts x

theorem Underway.size_lt (h : c.Underway s P ts) : c.knowledge.size < roundBound s :=
  ClauseSystem.size_lt_roundBound h.reachable h.reportable

/-- New constraints are taken over, and there is one more unless there is a verdict. -/
theorem Underway.learnFrom (h : c.Underway s P ts) (cs : Candidates)
    (found : Option (List Constraint))
    (hfound : ∀ cons, found = some cons →
      cons ≠ [] ∧ ∀ x ∈ cons, s.Reportable P ts x ∧ x ∉ c.knowledge.constraints) :
    (c.learnFrom cs found).2.Underway s P ts ∧ (c.learnFrom cs found).1 = .ok () ∧
      ((c.learnFrom cs found).2.verdict = none →
        c.knowledge.size < (c.learnFrom cs found).2.knowledge.size) := by
  cases found with
  | none =>
    refine ⟨⟨h.system_eq, h.learner, h.session, h.reachable, h.reportable⟩, rfl, fun hnone => ?_⟩
    cases hnone
  | some cons =>
    obtain ⟨hne, hnew⟩ := hfound cons rfl
    obtain ⟨hreachable, hmem⟩ := h.reachable.insertAll_snd cons
    have hreportable : ∀ x ∈ (c.knowledge.insertAll cons).2.constraints, s.Reportable P ts x := by
      intro x hx
      rcases hmem x hx with hx | hx
      · exact h.reportable x hx
      · exact (hnew x hx).1
    rw [Coordinator.learnFrom]
    split
    · next e k hinsert =>
      rw [hinsert] at hreachable hreportable
      refine ⟨⟨h.system_eq, h.learner, h.session, hreachable, hreportable⟩, rfl, fun hnone => ?_⟩
      cases hnone
    · next k hinsert =>
      obtain ⟨x, rest, rfl⟩ := List.exists_cons_of_ne_nil hne
      exact absurd (h.reachable.insertAll_pos hinsert (hnew x List.mem_cons_self).2) (by decide)
    · next n k hzero hinsert =>
      rw [hinsert] at hreachable hreportable
      refine ⟨⟨h.system_eq, h.learner, h.session, hreachable.simplify, hreportable⟩, rfl, ?_⟩
      intro _
      have hsize := h.reachable.size_insertAll hinsert
      have hpos : n ≠ 0 := hzero
      change c.knowledge.size < k.size
      omega

/-- A system over plain names, with sessions of some kind in which nothing is asserted. -/
structure Setting (s : ClauseSystem) (radius : Nat) (P : BoundedSession → Prop) : Prop where
  plain : ∀ d ∈ s.decls, '@' ∉ d.name.toList
  fresh : ∀ session, P session → session.Fresh s.signature radius
  keeps : ∀ t vars, Stateful.Keeps P (Session.modelOf t vars)

/-- What is reported on candidates for what is known is reportable and new. -/
theorem Underway.reported (hP : Setting s radius P) (h : c.Underway s P ts) {cs : Candidates}
    {found : List Constraint} (hcall : (c.learner.call c.knowledge).suggestion = .ok cs)
    (hcheck : (Teacher.check s cs c.session).1 = .ok (some found)) :
    found ≠ [] ∧ ∀ x ∈ found, s.Reportable P ts x ∧ x ∉ c.knowledge.constraints := by
  obtain ⟨hne, hfound⟩ := Teacher.reported_of_check hP.keeps h.session hcheck
  refine ⟨hne, fun x hx => ?_⟩
  obtain ⟨clause, i, m, session, hmem, hsession, hmodel, rfl⟩ := hfound x hx
  obtain ⟨t, ht, tree, hlearn, rfl⟩ := (h.learner.call c.knowledge).2.exists_tree cs hcall
  refine ⟨⟨t, ht, _, tree, hlearn, clause, i, m, session, hmem, hsession, hmodel, rfl⟩, ?_⟩
  apply TreeLearner.not_mem_of_refutedBy h.reachable hlearn
  exact clause.refutedBy_counterexample hP.plain (hP.fresh session hsession) hmodel i

/-- A round fails only with its learner or its session. If it comes to no verdict, it adds a
constraint. -/
theorem Underway.step (hP : Setting s radius P) (h : c.Underway s P ts) :
    c.step.2.Underway s P ts ∧
      (c.step.1 = .ok () ∨
        (∃ e, (c.learner.call c.knowledge).suggestion = .error e ∧
          c.step.1 = .error (.learner e)) ∨
        ∃ cs e, (c.learner.call c.knowledge).suggestion = .ok cs ∧
          (Teacher.check s cs c.session).1 = .error e ∧ c.step.1 = .error (.session e)) ∧
      (c.step.1 = .ok () → c.step.2.verdict = none →
        c.knowledge.size < c.step.2.knowledge.size) := by
  have hlearner := (h.learner.call c.knowledge).1
  rw [Coordinator.step]
  split
  · next v hverdict =>
    refine ⟨h, .inl rfl, fun _ hnone => ?_⟩
    cases hverdict.symm.trans hnone
  · simp only
    split
    · next e hcall =>
      refine ⟨⟨h.system_eq, hlearner, h.session, h.reachable, h.reportable⟩,
        .inr (.inl ⟨e, hcall, rfl⟩), fun hok => ?_⟩
      cases hok
    · next cs hcall =>
      have hsession : P (Teacher.check s cs c.session).2 :=
        Teacher.keeps_check hP.keeps c.session h.session
      rw [h.system_eq]
      split
      · next e session hcheck =>
        rw [hcheck] at hsession
        refine ⟨⟨rfl, hlearner, hsession, h.reachable, h.reportable⟩,
          .inr (.inr ⟨cs, e, hcall, by rw [hcheck], rfl⟩), fun hok => ?_⟩
        cases hok
      · next found session hcheck =>
        rw [hcheck] at hsession
        have hnext : Underway s P ts { c with
            system := s, learner := (c.learner.call c.knowledge).learner, session
            suggested := some (c.learner.call c.knowledge).suggestion
            asked := c.asked ++ (c.learner.call c.knowledge).asked, rounds := c.rounds + 1 } :=
          ⟨rfl, hlearner, hsession, h.reachable, h.reportable⟩
        obtain ⟨hunderway, hok, hsize⟩ := hnext.learnFrom cs found fun cons hcons =>
          h.reported hP hcall (by rw [hcheck, hcons])
        exact ⟨hunderway, .inl hok, fun _ => hsize⟩

theorem Underway.step_ne_noProgress (hP : Setting s radius P) (h : c.Underway s P ts) :
    c.step.1 ≠ .error .noProgress := by
  obtain ⟨-, hok | ⟨e, -, he⟩ | ⟨cs, e, -, -, he⟩, -⟩ := h.step hP
  · simp [hok]
  · simp [he]
  · simp [he]

/-- With enough rounds, more of them change nothing. The result is a verdict or the error of a
round. -/
theorem Underway.run (hP : Setting s radius P) (h : c.Underway s P ts)
    {R : Except SolveError Verdict → Prop}
    (hverdict : ∀ v, R (.ok v))
    (herror : ∀ {c : Coordinator BoundedSession}, c.Underway s P ts →
      ∀ e, c.step.1 = .error e → R (.error e)) {fuel : Nat}
    (hfuel : roundBound s ≤ fuel + c.knowledge.size) (more : Nat) :
    c.run (fuel + more) = c.run fuel ∧ R (c.run fuel).1 := by
  induction fuel generalizing c with
  | zero =>
    have hsize := h.size_lt
    omega
  | succ fuel ih =>
    obtain ⟨hnext, -, hgrows⟩ := h.step hP
    have hfails := herror h
    rw [Nat.succ_add, Coordinator.run, Coordinator.run]
    rcases hstep : c.step with ⟨e | ⟨⟩, next⟩
    · rw [hstep] at hfails
      exact ⟨rfl, hfails e rfl⟩
    · rw [hstep] at hnext hgrows
      cases hdone : next.verdict with
      | some v =>
        simp only [hdone]
        exact ⟨trivial, hverdict v⟩
      | none =>
        have hlt : c.knowledge.size < next.knowledge.size := hgrows rfl hdone
        simp only [hdone]
        exact ih hnext (by omega)

/-- A coordinator some rounds later, whatever came of them. -/
def after (c : Coordinator BoundedSession) : Nat → Coordinator BoundedSession
  | 0 => c
  | n + 1 => (c.after n).step.2

theorem Underway.after (hP : Setting s radius P) (h : c.Underway s P ts) (n : Nat) :
    (c.after n).Underway s P ts := by
  induction n with
  | zero => exact h
  | succ n ih => exact (ih.step hP).1

theorem underway_start (s : ClauseSystem) (config : InferenceConfig) (number : Nat)
    {session : BoundedSession} (hsession : P session) :
    Underway s P (config.trees s)
      { system := s, learner := config.learner s number, session } :=
  ⟨rfl, config.ofTrees_learner s number, hsession, .empty, nofun⟩

end Coordinator

/-- Whatever is reported on candidates for what is known is new. So no round is without progress,
and however often rounds are run, they end within a bound. -/
theorem rounds_end_with_progress {description : Description} {a : Automaton} {s : ClauseSystem}
    {radius : Int64} {session : BoundedSession}
    (ha : Automaton.ofDescription description = .ok a) (hs : ClauseSystem.ofAutomaton a = .ok s)
    (hsession : BoundedSession.ofRadius? s.signature radius = some session)
    (config : InferenceConfig) (number : Nat) (canceled : Bool) (n : Nat)
    {c : Coordinator BoundedSession}
    (hc : c = Coordinator.after
      { system := s, learner := config.learner s number, session := { session with canceled } } n) :
    (∀ cs found, (c.learner.call c.knowledge).suggestion = .ok cs →
      (Teacher.check s cs c.session).1 = .ok (some found) →
        ∀ x ∈ found, x ∉ c.knowledge.constraints) ∧
    c.step.1 ≠ .error .noProgress ∧
    ∀ fuel, Coordinator.roundBound s ≤ fuel →
      c.run fuel = c.run (Coordinator.roundBound s) ∧ (c.run fuel).1 ≠ .error .noProgress := by
  have hfresh := BoundedSession.fresh_of_ofRadius? hsession
  have hstart : BoundedSession.Fresh s.signature radius.toInt.natAbs { session with canceled } :=
    ⟨hfresh.signature_eq, hfresh.radius_eq, hfresh.base_eq, hfresh.scopes_eq⟩
  have hP : Coordinator.Setting s radius.toInt.natAbs
      (BoundedSession.Fresh s.signature radius.toInt.natAbs) :=
    ⟨ClauseSystem.plain_decls ha hs, fun _ h => h, fun t vars _ h => h.modelOf t vars⟩
  have h := (Coordinator.underway_start s config number hstart).after hP n
  rw [← hc] at h
  refine ⟨fun cs found hcall hcheck x hx => ?_, h.step_ne_noProgress hP, fun fuel hfuel => ?_⟩
  · exact ((h.reported hP hcall hcheck).2 x hx).2
  · obtain ⟨more, rfl⟩ := Nat.exists_eq_add_of_le hfuel
    obtain ⟨hsame, hprogress⟩ := h.run hP (R := (· ≠ .error .noProgress)) (fun v => by simp)
      (fun h e he heq => by
        cases heq
        exact h.step_ne_noProgress hP he) (Nat.le_add_right _ _) more
    exact ⟨hsame, hsame ▸ hprogress⟩

/-- In the third round on a loop that any value enters, two learners that use atoms exclude the only
value that is known to fail. What is reported on that is new. -/
theorem openLoop_third_round :
    ∃ s session c cs k, ClauseSystem.ofAutomaton openLoop = .ok s ∧
      BoundedSession.ofRadius? s.signature 1 = some session ∧
      c = Coordinator.after
        { system := s, session
          learner := { learners := 2, useAtoms := true : InferenceConfig }.learner s 1 } 2 ∧
      c.knowledge.size = 2 ∧ (c.learner.call c.knowledge).suggestion = .ok cs ∧
      (Teacher.check s cs c.session).1 = .ok (some [k]) ∧ k ∉ c.knowledge.constraints ∧
      (c.run (Coordinator.roundBound s)).1 ≠ .error .noProgress := by
  let cs : Candidates := .const [[.rel .leq (.var "x") (.int 0)]]
  let k : Constraint := ⟨[], some ⟨1, .ofList [("x", .int 1)]⟩, .clause 0⟩
  have ha : Automaton.ofDescription openLoop.describe = .ok openLoop := rfl
  have hround : ∃ s, ClauseSystem.ofAutomaton openLoop = .ok s ∧
      let c := Coordinator.after
        { system := s, session := { signature := s.signature, radius := 1 }
          learner := { learners := 2, useAtoms := true : InferenceConfig }.learner s 1 } 2
      c.knowledge.size = 2 ∧ (c.learner.call c.knowledge).suggestion = .ok cs ∧
        (Teacher.check s cs c.session).1 = .ok (some [k]) :=
    ⟨_, rfl, by decide +kernel⟩
  obtain ⟨s, hs, hsize, hcall, hcheck⟩ := hround
  have hsession := BoundedSession.ofRadius?_eq_some s.signature
    (by decide : (1 : Int64) ≠ Int64.minValue)
  obtain ⟨hnew, -, hrun⟩ := rounds_end_with_progress ha hs hsession
    { learners := 2, useAtoms := true } 1 false 2 rfl
  exact ⟨s, _, _, cs, k, hs, hsession, rfl, hsize, hcall, hcheck,
    hnew cs [k] hcall hcheck k List.mem_cons_self, (hrun _ (Nat.le_refl _)).2⟩

end LoopInvariant
