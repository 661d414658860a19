import LoopInvariant.Proofs.Progress
import LoopInvariant.Proofs.Separation
import LoopInvariant.Proofs.Sorting
/-!
# Well-sorted programs get a verdict

A bounded session that is not canceled answers every well-sorted question, and its models give each
variable a value of its sort. So a teacher never fails, and the datapoints it reports are total. A
learner that uses values has a tree for those. What is left for a round is to come to a verdict or
to add a constraint, of which there are finitely many.
-/

namespace LoopInvariant

/-! ## Declared sorts -/

theorem Signature.get?_ofDecls {decls : List VarDecl} (hnodup : (decls.map (·.name)).Nodup)
    {d : VarDecl} (hd : d ∈ decls) : (ofDecls decls).get? d.name = some d.sort := by
  have hone : ∀ x a b, (x, a) ∈ decls.map (fun d => (d.name, d.sort)) →
      (x, b) ∈ decls.map (fun d => (d.name, d.sort)) → a = b := by
    intro x a b ha hb
    obtain ⟨e, he, heq⟩ := List.mem_map.1 ha
    obtain ⟨f, hf, heq'⟩ := List.mem_map.1 hb
    rw [Prod.mk.injEq] at heq heq'
    have hsame : e = f := List.inj_on_of_nodup_map hnodup he hf (heq.1.trans heq'.1.symm)
    rw [← heq.2, ← heq'.2, hsame]
  rw [ofDecls, SortedMap.get?_ofList_eq_some_iff hone]
  exact List.mem_map_of_mem hd

/-! ## Answers of a session -/

theorem Env.Sorted.insert {σ : String → Option VarSort} {v : Valuation}
    (hv : Env.Sorted σ v.get?) {x : String} {a : Value} (hx : σ x = some a.sort) :
    Env.Sorted σ (v.insert x a).get? := by
  intro y b hy
  rw [SortedMap.get?_insert] at hy
  split at hy
  · next heq =>
    cases hy
    rw [heq, hx]
  · exact hv y b hy

namespace BoundedSession

variable {s : BoundedSession} {cs : List Term} {sig : Signature} {radius : Nat}

theorem sort_of_mem_domain {sort : VarSort} {v : Value} (h : v ∈ domain radius sort) :
    v.sort = sort := by
  cases sort with
  | bool =>
    rcases List.mem_cons.1 h with rfl | h
    · rfl
    · cases List.mem_singleton.1 h
      rfl
  | int =>
    rcases List.mem_cons.1 h with rfl | h
    · rfl
    · obtain ⟨i, -, h⟩ := List.mem_flatMap.1 h
      rcases List.mem_cons.1 h with rfl | h
      · rfl
      · cases List.mem_singleton.1 h
        rfl

theorem hasSort_of_definition? {σ : String → Option VarSort} {c e : Term}
    (hc : c.HasSort σ .bool) {x : String} (h : definition? x c = some e) :
    ∃ sort, σ x = some sort ∧ e.HasSort σ sort := by
  obtain ⟨op, -, rfl | rfl⟩ := eq_of_definition? h
  · cases hc with
    | bin _ _ hl hr =>
      cases hl with
      | var hx => exact ⟨_, hx, hr⟩
  · cases hc with
    | bin _ _ hl hr =>
      cases hr with
      | var hx => exact ⟨_, hx, hl⟩

theorem sort_of_mem_choices (hcs : ∀ c ∈ cs, c.HasSort s.signature.sortOf? .bool) {v : Valuation}
    (hv : Env.Sorted s.signature.sortOf? v.get?) {x : String} {values : List Value}
    (h : s.choices x cs v = .ok values) :
    ∀ a ∈ values, s.signature.sortOf? x = some a.sort := by
  intro a ha
  rw [choices] at h
  split at h
  · next b hdefined =>
    cases h
    cases List.mem_singleton.1 ha
    obtain ⟨c, hc, hvalue⟩ := List.exists_of_findSome?_eq_some hdefined
    obtain ⟨e, he, hvalue⟩ := Option.bind_eq_some_iff.1 hvalue
    obtain ⟨sort, hx, hsort⟩ := hasSort_of_definition? (hcs c hc) he
    rw [hx, hsort.sort_eval hv hvalue]
  · obtain ⟨sort, hsort, rfl⟩ := map_eq_ok.1 h
    rw [Signature.sortOf] at hsort
    split at hsort
    · next hx =>
      cases hsort
      rw [hx, sort_of_mem_domain ha]
    · cases hsort

theorem sorted_of_search (hcs : ∀ c ∈ cs, c.HasSort s.signature.sortOf? .bool) {xs : List String}
    {v m : Valuation} (hv : Env.Sorted s.signature.sortOf? v.get?)
    (h : s.search cs xs v = .ok (some m)) : Env.Sorted s.signature.sortOf? m.get? := by
  induction xs generalizing v with
  | nil =>
    rw [search, Except.ok.injEq] at h
    split at h
    · cases h
      exact hv
    · cases h
  | cons x xs ih =>
    rw [search] at h
    split at h
    · cases h
    · split at h
      · cases h
      · split at h
        · cases h
        · next values hchoices =>
          obtain ⟨a, ha, hfound⟩ := firstFound_eq_some h
          exact ih (hv.insert (sort_of_mem_choices hcs hv hchoices a ha)) hfound

theorem exists_firstFound {α : Type} {f : Value → Except SessionError (Option α)}
    (hf : ∀ a, ∃ r, f a = .ok r) (values : List Value) : ∃ r, firstFound f values = .ok r := by
  induction values with
  | nil => exact ⟨none, rfl⟩
  | cons a as ih =>
    rw [firstFound]
    split
    · exact ih
    · exact hf a

theorem exists_choices (cs : List Term) (v : Valuation) {x : String}
    (hx : ∃ sort, s.signature.sortOf? x = some sort) :
    ∃ values, s.choices x cs v = .ok values := by
  obtain ⟨sort, hsort⟩ := hx
  rw [choices]
  split
  · exact ⟨_, rfl⟩
  · rw [Signature.sortOf, hsort]
    exact ⟨_, rfl⟩

/-- A search over variables with sorts that is not canceled comes to an end. -/
theorem exists_search (hcanceled : s.canceled = false) {xs : List String}
    (hxs : ∀ x ∈ xs, ∃ sort, s.signature.sortOf? x = some sort) (v : Valuation) :
    ∃ r, s.search cs xs v = .ok r := by
  induction xs generalizing v with
  | nil => exact ⟨_, rfl⟩
  | cons x xs ih =>
    obtain ⟨hx, hxs⟩ := List.forall_mem_cons.1 hxs
    obtain ⟨values, hvalues⟩ := exists_choices cs v hx
    rw [search]
    split
    · exact ⟨none, rfl⟩
    · rw [hcanceled, if_neg Bool.false_ne_true, hvalues]
      exact exists_firstFound (fun a => ih hxs (v.insert x a)) values

theorem exists_complete (m : Valuation) {xs : List String}
    (hxs : ∀ x ∈ xs, ∃ sort, s.signature.sortOf? x = some sort) (v : Valuation) :
    ∃ r, s.complete m xs v = .ok r := by
  induction xs generalizing v with
  | nil => exact ⟨v, rfl⟩
  | cons x xs ih =>
    obtain ⟨⟨sort, hsort⟩, hxs⟩ := List.forall_mem_cons.1 hxs
    rw [complete]
    split
    · exact ih hxs _
    · rw [Signature.sortOf, hsort]
      exact ih hxs _

/-- A question about variables with sorts is answered if those of the assertions have sorts as well,
unless the session is canceled. -/
theorem exists_modelOf (hcanceled : s.canceled = false)
    (hconjuncts : ∀ c ∈ s.conjuncts, ∀ x ∈ c.vars, ∃ sort, s.signature.sortOf? x = some sort)
    {t : Term} (ht : ∀ x ∈ t.vars, ∃ sort, s.signature.sortOf? x = some sort) {vars : List String}
    (hvars : ∀ x ∈ vars, ∃ sort, s.signature.sortOf? x = some sort) :
    ∃ r, (Session.modelOf t vars s).1 = .ok r := by
  have hdeclared : s.opened.needSorts vars = .ok () := needSorts_eq_ok.2 hvars
  have hasserted : s.opened.needSorts t.vars = .ok () := needSorts_eq_ok.2 ht
  have hsearch : ∃ r, (s.opened.add t.conjuncts).check = .ok r := by
    have hrunning : (s.opened.add t.conjuncts).canceled = false := hcanceled
    rw [check, conjuncts_opened]
    refine exists_search hrunning (fun x hx => ?_) _
    obtain ⟨c, hc, hx⟩ := mem_searchOrder.1 hx
    rcases List.mem_append.1 hc with hc | hc
    · exact hconjuncts c hc x hx
    · have hvar := Term.occurrences_of_conjuncts hc (Term.mem_vars_iff.1 hx)
      exact ht x (Term.mem_vars_iff.2 hvar)
  obtain ⟨r, hr⟩ := hsearch
  rw [modelOf_run, find, hdeclared, hasserted, hr]
  cases r with
  | none => exact ⟨none, rfl⟩
  | some m =>
    obtain ⟨v, hv⟩ := exists_complete m (needSorts_eq_ok.1 hdeclared) (SortedMap.ofList [])
    refine ⟨some v, ?_⟩
    change (s.opened.complete m vars (SortedMap.ofList [])).map some = _
    rw [hv]
    rfl

/-- A session in which nothing is asserted and that answers. -/
structure Ready (sig : Signature) (radius : Nat) (s : BoundedSession) : Prop
    extends Fresh sig radius s where
  not_canceled : s.canceled = false

theorem Ready.modelOf (h : s.Ready sig radius) (t : Term) (vars : List String) :
    (Session.modelOf t vars s).2.Ready sig radius := by
  refine ⟨h.toFresh.modelOf t vars, ?_⟩
  rw [modelOf_run]
  exact h.not_canceled

theorem Ready.exists_modelOf (h : s.Ready sig radius) {t : Term} (ht : t.HasSort sig.sortOf? .bool)
    {vars : List String} (hvars : ∀ x ∈ vars, ∃ sort, sig.sortOf? x = some sort) :
    ∃ r, (Session.modelOf t vars s).1 = .ok r := by
  rw [← h.signature_eq] at ht hvars
  refine BoundedSession.exists_modelOf h.not_canceled ?_
    (fun x hx => ht.of_occurrences (Term.mem_vars_iff.1 hx)) hvars
  simp [h.toFresh.conjuncts_nil]

/-- The values of a model have the sorts of their variables. -/
theorem Fresh.sort_of_modelOf (h : s.Fresh sig radius) {t : Term}
    (ht : t.HasSort sig.sortOf? .bool) {vars : List String} {m : Valuation}
    (hmodel : (Session.modelOf t vars s).1 = .ok (some m)) {x : String} (hx : x ∈ vars)
    {sort : VarSort} (hsort : sig.sortOf? x = some sort) :
    ∃ a, m.get? x = some a ∧ a.sort = sort := by
  obtain ⟨found, hsearch, -, -, hvalues⟩ := h.exists_found hmodel
  have hsig : (s.opened.add t.conjuncts).signature = sig := h.signature_eq
  have hsorted : Env.Sorted sig.sortOf? found.get? := by
    rw [← hsig]
    refine sorted_of_search (fun c hc => ?_) (fun y a hy => by cases hy) hsearch
    rw [hsig]
    exact ht.conjuncts hc
  refine ⟨_, hvalues x hx, ?_⟩
  rw [fill]
  cases hfound : found.get? x with
  | some a =>
    have ha := hsorted x a hfound
    rw [hsort] at ha
    exact (Option.some.inj ha).symm
  | none =>
    have hsig : s.opened.signature = sig := h.signature_eq
    rw [hsig, hsort]
    cases sort <;> rfl

end BoundedSession

/-! ## Answers of a teacher -/

namespace Teacher

variable {P : BoundedSession → Prop} {session : BoundedSession} {cs : Candidates}

theorem exists_gather (hkeeps : ∀ t vars, Stateful.Keeps P (Session.modelOf t vars))
    {names : List String} (numbered : List (Clause × Nat))
    (hanswers : ∀ c i, (c, i) ∈ numbered → ∀ session, P session →
      ∃ r, (Session.modelOf (c.violation cs) (c.observed names) session).1 = .ok r)
    (h : P session) :
    ∃ found, (gather names cs numbered session).1 = .ok found := by
  induction numbered generalizing session with
  | nil => exact ⟨[], rfl⟩
  | cons x rest ih =>
    obtain ⟨c, i⟩ := x
    obtain ⟨r, hr⟩ := hanswers c i List.mem_cons_self session h
    obtain ⟨found, hfound⟩ := ih (fun c i hmem => hanswers c i (List.mem_cons_of_mem _ hmem))
      (hkeeps (c.violation cs) (c.observed names) session h)
    rw [gather, Stateful.bind_of_ok (Prod.ext hr rfl), Stateful.bind_of_ok (Prod.ext hfound rfl)]
    exact ⟨_, rfl⟩

theorem exists_check (hkeeps : ∀ t vars, Stateful.Keeps P (Session.modelOf t vars))
    {system : ClauseSystem}
    (hanswers : ∀ c ∈ system.clauses, ∀ session, P session →
      ∃ r, (Session.modelOf (c.violation cs) (c.observed (system.decls.map (·.name)))
        session).1 = .ok r)
    (h : P session) : ∃ r, (check system cs session).1 = .ok r := by
  obtain ⟨found, hfound⟩ := exists_gather hkeeps system.clauses.zipIdx
    (fun c i hmem => hanswers c (List.fst_mem_of_mem_zipIdx hmem)) h
  rw [check, Stateful.bind_of_ok (Prod.ext hfound rfl)]
  exact ⟨_, rfl⟩

end Teacher

namespace Clause

variable {c : Clause} {decls : List VarDecl}

theorem mem_observed {names : List String} {x : String} (h : x ∈ c.observed names) :
    ∃ y ∈ names, x = Indexing.initial.name y ∨ x = c.indexing.name y := by
  rcases mem_observed_iff.1 h with ⟨-, -, y, hy, rfl⟩ | ⟨-, -, y, hy, rfl⟩
  · exact ⟨y, hy, .inl rfl⟩
  · exact ⟨y, hy, .inr rfl⟩

theorem sortOf?_name (hnodup : (decls.map (·.name)).Nodup) {ix : Indexing} (hix : ix.Readable)
    {d : VarDecl} (hd : d ∈ decls) :
    (Signature.ofDecls decls).sortOf? (ix.name d.name) = some d.sort := by
  rw [Indexing.name, Signature.sortOf?_versioned _ _ (hix _), Signature.get?_ofDecls hnodup hd]

theorem WellSorted.observed (h : c.WellSorted (.ofDecls decls))
    (hnodup : (decls.map (·.name)).Nodup) :
    ∀ x ∈ c.observed (decls.map (·.name)),
      ∃ sort, (Signature.ofDecls decls).sortOf? x = some sort := by
  intro x hx
  obtain ⟨y, hy, hx⟩ := mem_observed hx
  obtain ⟨d, hd, rfl⟩ := List.mem_map.1 hy
  rcases hx with rfl | rfl
  · exact ⟨_, sortOf?_name hnodup Indexing.readable_initial hd⟩
  · exact ⟨_, sortOf?_name hnodup h.readable hd⟩

theorem total_project {site : Loc} {ix : Indexing} {m : Valuation}
    (h : ∀ d ∈ decls, ∃ a, m.get? (ix.name d.name) = some a ∧ a.sort = d.sort) :
    Datapoint.Total decls ⟨site, project (decls.map (·.name)) ix m⟩ := by
  constructor
  · intro d hd
    obtain ⟨a, ha, hsort⟩ := h d hd
    exact ⟨a, by rw [get?_project (List.mem_map_of_mem hd), ha], hsort⟩
  · intro x a hx
    rw [project, SortedMap.get?_ofList_graph] at hx
    split at hx
    · next hmem => exact List.mem_map.1 hmem
    · cases hx

theorem WellSorted.total_counterexample (h : c.WellSorted (.ofDecls decls))
    (hnodup : (decls.map (·.name)).Nodup) {m : Valuation}
    (hm : ∀ x ∈ c.observed (decls.map (·.name)), ∀ sort,
      (Signature.ofDecls decls).sortOf? x = some sort → ∃ a, m.get? x = some a ∧ a.sort = sort)
    (i : Nat) : ∀ p ∈ (c.counterexample i (decls.map (·.name)) m).datapoints, p.Total decls := by
  intro p hp
  rcases List.mem_append.1 hp with hp | hp
  · obtain ⟨l, hl, rfl⟩ := mem_sources_counterexample hp
    refine total_project fun d hd => hm _ ?_ _ (sortOf?_name hnodup Indexing.readable_initial hd)
    exact mem_observed_of_pre hl (List.mem_map_of_mem hd)
  · obtain ⟨l, hl, rfl⟩ := target_counterexample (Option.mem_toList.1 hp)
    refine total_project fun d hd => hm _ ?_ _ (sortOf?_name hnodup h.readable hd)
    exact mem_observed_of_post hl (List.mem_map_of_mem hd)

end Clause

/-! ## Whole runs -/

structure ClauseSystem.WellSorted (s : ClauseSystem) : Prop where
  plain : ∀ d ∈ s.decls, '@' ∉ d.name.toList
  nodup : (s.decls.map (·.name)).Nodup
  clauses : ∀ c ∈ s.clauses, c.WellSorted s.signature

namespace InferenceConfig

variable {config : InferenceConfig} {s : ClauseSystem}

theorem mem_trees {t : TreeLearner} (ht : t ∈ config.trees s) :
    t.decls = s.decls ∧ ∀ u ∈ t.atoms, u ∈ s.atoms := by
  rw [trees] at ht
  split at ht
  · rcases List.mem_cons.1 ht with rfl | ht
    · exact ⟨rfl, fun u hu => hu⟩
    · cases List.mem_singleton.1 ht
      exact ⟨rfl, fun u hu => hu⟩
  · cases List.mem_singleton.1 ht
    exact ⟨rfl, fun u hu => by cases hu⟩

theorem exists_useValues (config : InferenceConfig) (s : ClauseSystem) :
    ∃ t ∈ config.trees s, t.useValues = true := by
  rw [trees]
  split
  · exact ⟨_, List.mem_cons_of_mem _ List.mem_cons_self, rfl⟩
  · exact ⟨_, List.mem_cons_self, rfl⟩

theorem all_hasSort_candidates (hs : s.WellSorted) {t : TreeLearner} (ht : t ∈ config.trees s)
    {k : Knowledge} {tree : DecisionTree} (h : t.learn k = .ok tree) :
    tree.candidates.All (·.HasSort s.signature.get? .bool) := by
  obtain ⟨hdecls, hatoms⟩ := mem_trees ht
  refine TreeLearner.all_hasSort_of_learn (fun d hd => ?_) (fun u hu => ?_) h
  · exact Signature.get?_ofDecls hs.nodup (hdecls ▸ hd)
  · exact ClauseSystem.hasSort_atoms hs.clauses u (hatoms u hu)

end InferenceConfig

namespace Coordinator

variable {s : ClauseSystem} {radius : Nat} {config : InferenceConfig}
variable {c : Coordinator BoundedSession}

theorem setting_ready (hs : s.WellSorted) (radius : Nat) :
    Setting s radius (BoundedSession.Ready s.signature radius) :=
  ⟨hs.plain, fun _ h => h.toFresh, fun t vars _ h => h.modelOf t vars⟩

theorem Underway.total (hs : s.WellSorted)
    (h : c.Underway s (BoundedSession.Ready s.signature radius) (config.trees s)) :
    ∀ p ∈ c.knowledge.datapoints, p.Total s.decls := by
  intro p hp
  refine Datapoint.Total.of_generated (fun d hd => ?_) (h.reachable.mem_datapoints_iff.1 hp)
  obtain ⟨x, hx, hd⟩ := hd
  obtain ⟨t, ht, k, tree, hlearn, clause, i, m, session, hmem, hsession, hmodel, rfl⟩ :=
    h.reportable x hx
  have hclause := hs.clauses clause (List.fst_mem_of_mem_zipIdx hmem)
  have hviolation := hclause.violation (InferenceConfig.all_hasSort_candidates hs ht hlearn)
  apply hclause.total_counterexample hs.nodup _ i d hd
  intro y hy sort hsort
  exact hsession.sort_of_modelOf hviolation hmodel hy hsort

/-- No round fails. -/
theorem Underway.step_eq_ok (hs : s.WellSorted)
    (h : c.Underway s (BoundedSession.Ready s.signature radius) (config.trees s)) :
    c.step.1 = .ok () := by
  have hP := setting_ready hs radius
  obtain ⟨-, hok | ⟨e, hcall, -⟩ | ⟨cs, e, hcall, hcheck, -⟩, -⟩ := h.step hP
  · exact hok
  · obtain ⟨t, ht, hvalues⟩ := config.exists_useValues s
    obtain ⟨hdecls, -⟩ := InferenceConfig.mem_trees ht
    obtain ⟨tree, htree⟩ := TreeLearner.exists_learn hvalues h.reachable (hdecls ▸ h.total hs)
    obtain ⟨cs, hcs⟩ := (h.learner.call c.knowledge).2.succeeds t ht tree htree
    cases hcall.symm.trans hcs
  · obtain ⟨t, ht, tree, hlearn, rfl⟩ := (h.learner.call c.knowledge).2.exists_tree cs hcall
    have hcandidates := InferenceConfig.all_hasSort_candidates hs ht hlearn
    obtain ⟨r, hr⟩ := Teacher.exists_check hP.keeps (fun clause hclause session hsession =>
      hsession.exists_modelOf ((hs.clauses clause hclause).violation hcandidates)
        ((hs.clauses clause hclause).observed hs.nodup)) h.session
    cases hcheck.symm.trans hr

end Coordinator

theorem ClauseSystem.wellSorted_of_ofAutomaton {description : Description} {a : Automaton}
    {s : ClauseSystem} (ha : Automaton.ofDescription description = .ok a) (hsorted : a.WellSorted)
    (hlength : (a.edges.flatMap (·.stmts)).length < 18446744073709551616)
    (hs : ofAutomaton a = .ok s) : s.WellSorted := by
  have hwf := Automaton.wellFormed_of_ofDescription ha
  obtain ⟨_, -, hencodes⟩ := encodes_of_ofAutomaton hs
  refine ⟨plain_decls ha hs, ?_, wellSorted_clauses hwf hsorted hlength hs⟩
  rw [decls, hencodes.automaton_eq]
  exact hwf.nodup

/-- Inference with a bounded solver comes to a verdict on every well-sorted program, whatever the
learners. As in any program that is held in memory, there are fewer than `2 ^ 64` statements. -/
theorem verdict_of_wellSorted {description : Description} {a : Automaton} {s : ClauseSystem}
    {radius : Int64} (ha : Automaton.ofDescription description = .ok a) (hsorted : a.WellSorted)
    (hlength : (a.edges.flatMap (·.stmts)).length < 18446744073709551616)
    (hs : ClauseSystem.ofAutomaton a = .ok s) (hradius : radius ≠ Int64.minValue) :
    ∃ session, BoundedSession.ofRadius? s.signature radius = some session ∧
      ∀ (config : InferenceConfig) (number : Nat), ∃ v, ∀ fuel, Coordinator.roundBound s ≤ fuel →
        (Coordinator.run fuel { system := s, learner := config.learner s number, session }).1 =
          .ok v := by
  have hwellSorted := ClauseSystem.wellSorted_of_ofAutomaton ha hsorted hlength hs
  have hsession := BoundedSession.ofRadius?_eq_some s.signature hradius
  have hready : BoundedSession.Ready s.signature radius.toInt.natAbs
      { signature := s.signature, radius := radius.toInt.natAbs } :=
    ⟨BoundedSession.fresh_of_ofRadius? hsession, rfl⟩
  refine ⟨_, hsession, fun config number => ?_⟩
  have hrun := (Coordinator.underway_start s config number hready).run
    (Coordinator.setting_ready hwellSorted _) (R := fun r => ∃ v, r = .ok v) (fun v => ⟨v, rfl⟩)
    (fun h e he => by cases (h.step_eq_ok hwellSorted).symm.trans he) (Nat.le_add_right _ _)
  obtain ⟨v, hv⟩ := (hrun 0).2
  refine ⟨v, fun fuel hfuel => ?_⟩
  obtain ⟨more, rfl⟩ := Nat.exists_eq_add_of_le hfuel
  rw [(hrun more).1, hv]

/-- A loop that squares a value, which may leave the range, and keeps a flag of where it started. -/
def squaringLoop : Automaton where
  decls := [⟨"b", .bool⟩, ⟨"x", .int⟩]
  locations := ["start", "loop", "bad"]
  entry := 0
  error := 2
  edges := [⟨0, 1, [.assign "b" (.rel .lt (.var "x") (.int 0)), .assume (.not (.var "b"))]⟩,
    ⟨1, 1, [.assign "x" (.arith .mul (.var "x") (.var "x"))]⟩,
    ⟨1, 2, [.assume (.bin .iff (.var "b") (.rel .geq (.var "x") (.int 0)))]⟩]

theorem squaringLoop_verdict :
    ∃ s session, ClauseSystem.ofAutomaton squaringLoop = .ok s ∧ squaringLoop.WellSorted ∧
      BoundedSession.ofRadius? s.signature 1000000 = some session ∧
      ∀ (config : InferenceConfig) (number : Nat), ∃ v, ∀ fuel, Coordinator.roundBound s ≤ fuel →
        (Coordinator.run fuel { system := s, learner := config.learner s number, session }).1 =
          .ok v := by
  have hb : (Term.var "b").HasSort (Signature.ofDecls squaringLoop.decls).get? .bool := .var rfl
  have hx : (Term.var "x").HasSort (Signature.ofDecls squaringLoop.decls).get? .int := .var rfl
  have hsorted : squaringLoop.WellSorted := by
    simp only [Automaton.WellSorted, squaringLoop, List.forall_mem_cons, Statement.WellSorted]
    exact ⟨⟨⟨.bool, rfl, .rel .lt hx (.int 0)⟩, .not hb, by simp⟩, ⟨⟨.int, rfl, .arith .mul hx hx⟩,
      by simp⟩, ⟨.bin .iff rfl hb (.rel .geq hx (.int 0)), by simp⟩, by simp⟩
  have hencodes : ∃ s, ClauseSystem.ofAutomaton squaringLoop = .ok s := ⟨_, rfl⟩
  obtain ⟨s, hs⟩ := hencodes
  have ha : Automaton.ofDescription squaringLoop.describe = .ok squaringLoop := rfl
  obtain ⟨session, hsession, hverdict⟩ :=
    verdict_of_wellSorted ha hsorted (by decide) hs (by decide : (1000000 : Int64) ≠ Int64.minValue)
  exact ⟨s, session, hs, hsorted, hsession, hverdict⟩

end LoopInvariant
