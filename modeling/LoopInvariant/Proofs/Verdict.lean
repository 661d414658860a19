import LoopInvariant.Proofs.ClauseChain
import LoopInvariant.Proofs.Coordination
import LoopInvariant.Proofs.Deduction
import LoopInvariant.Proofs.Teaching
import LoopInvariant.Proofs.ValueTree
/-!
# What verdicts mean

Where inference refutes a program, an execution reaches the error location. The datapoints whose
values some execution takes at their site are otherwise a model of every constraint that a teacher
reports: the model behind a constraint is an execution of the clause's segment, which goes on from
wherever the source was reached. Deduction contradicts no model.

Where inference finds a program safe, no execution in the box reaches the error location. A teacher
with a bounded session accepts candidates only if no state of the box violates a clause. Where they
have a truth value, the candidates then hold along every execution that stays in the box.
-/

namespace LoopInvariant

/-! ## Counterexamples as executions -/

namespace Clause

variable {c : Clause} {names : List String} {x : String}

theorem get?_project {ix : Indexing} {m : Valuation} (hx : x ∈ names) :
    (project names ix m).get? x = m.get? (ix.name x) := by
  rw [project, SortedMap.get?_ofList_graph, if_pos hx]

theorem mem_observed_iff : x ∈ c.observed names ↔
    (∃ l, c.pre = .head l ∧ ∃ y ∈ names, Indexing.initial.name y = x) ∨
      ∃ l, c.post = .head l ∧ ∃ y ∈ names, c.indexing.name y = x := by
  rw [observed, SortedSet.mem_toList_ofList, List.mem_append]
  cases hpre : c.pre <;> cases hpost : c.post <;> simp [Endpoint.head?]

theorem mem_observed_of_pre {l : Loc} (hpre : c.pre = .head l) (hx : x ∈ names) :
    Indexing.initial.name x ∈ c.observed names :=
  mem_observed_iff.2 (.inl ⟨l, hpre, x, hx, rfl⟩)

theorem mem_observed_of_post {l : Loc} (hpost : c.post = .head l) (hx : x ∈ names) :
    c.indexing.name x ∈ c.observed names :=
  mem_observed_iff.2 (.inr ⟨l, hpost, x, hx, rfl⟩)

theorem mem_sources_counterexample {i : Nat} {m : Valuation} {p : Datapoint}
    (hp : p ∈ (c.counterexample i names m).sources) :
    ∃ l, c.pre = .head l ∧ p = ⟨l, project names .initial m⟩ := by
  simp only [counterexample, List.mem_map, Option.mem_toList, Endpoint.head?_eq_some] at hp
  obtain ⟨l, hl, rfl⟩ := hp
  exact ⟨l, hl, rfl⟩

theorem target_counterexample {i : Nat} {m : Valuation} {p : Datapoint}
    (hp : (c.counterexample i names m).target = some p) :
    ∃ l, c.post = .head l ∧ p = ⟨l, project names c.indexing m⟩ := by
  simp only [counterexample, Option.map_eq_some_iff, Endpoint.head?_eq_some] at hp
  obtain ⟨l, hl, rfl⟩ := hp
  exact ⟨l, hl, rfl⟩

theorem pre_ne_error (c : Clause) : c.pre ≠ .error := by
  rw [pre]
  cases c.shape <;> simp [ClauseShape.pre]

theorem post_ne_entry (c : Clause) : c.post ≠ .entry := by
  rw [post]
  cases c.shape <;> simp [ClauseShape.post]

end Clause

namespace Automaton

variable {a : Automaton} {d : Decomposition} {s : ClauseSystem}

/-- Some execution reaches a site with the values of a datapoint. -/
def Visits (a : Automaton) (p : Datapoint) : Prop :=
  ∃ s₀ trace u, a.Run s₀ trace p.site u ∧ ∀ x ∈ a.names, p.valuation.get? x = some (u x)

theorem closed_visits : Datapoint.Closed a.Visits := by
  rintro p q ⟨s₀, trace, u, hrun, hvalues⟩ hsubset
  obtain ⟨hsite, hsub⟩ := Datapoint.subset_iff.1 hsubset
  exact ⟨s₀, trace, u, hsite ▸ hrun, fun x hx => hsub x _ (hvalues x hx)⟩

/-- Unless the error location is reached, the visited datapoints are a model of every constraint
that a violation shows. -/
theorem meets_visits (hwf : a.WellFormed) (hd : a.Decomposes d) (hs : s.Encodes a d)
    (hsafe : ¬a.ErrorReachable) {cs : Candidates} {c : Clause} (hc : c ∈ s.clauses)
    {k : Constraint} (hk : Teacher.Shown a.names cs c k) : k.Meets a.Visits := by
  obtain ⟨i, w, m, hviolated, hvalues⟩ := hk
  obtain ⟨seg, hseg, hencodes⟩ := hs.of_clause c hc
  obtain ⟨-, hbody, -⟩ := (c.evalBool_violation cs w).1 hviolated
  obtain ⟨trace, hstmts⟩ := hencodes.executes hbody
  intro hsources
  -- some execution reaches the start of the segment with the values of the model
  have hbefore : ∃ s₀ trace u, a.Run s₀ trace (c.pre.loc a) u ∧
      ∀ x ∈ a.names, Indexing.initial.view w x = u x := by
    cases hpre : c.pre with
    | entry => exact ⟨_, [], _, .start, fun x _ => rfl⟩
    | error => exact absurd hpre c.pre_ne_error
    | head l =>
      obtain ⟨s₀, trace, u, hrun, hu⟩ := hsources ⟨l, Clause.project a.names .initial m⟩
        (by simp [Clause.counterexample, hpre, Endpoint.head?])
      refine ⟨s₀, trace, u, hrun, fun x hx => Option.some.inj ?_⟩
      rw [← hu x hx, Clause.get?_project hx, hvalues _ (Clause.mem_observed_of_pre hpre hx)]
      rfl
  obtain ⟨s₀, before, u, hrun, hagree⟩ := hbefore
  obtain ⟨after, u', hstmts', hagree'⟩ :=
    hstmts.frame (fun st hst x => mem_names_of_stmts hwf hst) hagree
  rw [hencodes.pre_eq] at hrun
  have hrun' := (hd.path hwf hseg).run hrun hstmts'
  rw [← hencodes.post_eq] at hrun'
  cases hpost : c.post with
  | entry => exact absurd hpost c.post_ne_entry
  | error =>
    rw [hpost] at hrun'
    exact absurd ⟨s₀, _, u', hrun'⟩ hsafe
  | head l =>
    rw [hpost] at hrun'
    refine ⟨⟨l, Clause.project a.names c.indexing m⟩, ?_, s₀, _, u', hrun', fun x hx => ?_⟩
    · simp [Clause.counterexample, hpost, Endpoint.head?]
    · rw [Clause.get?_project hx, hvalues _ (Clause.mem_observed_of_post hpost hx), ← hagree' x hx]
      rfl

end Automaton

/-! ## No refutation without an error -/

namespace Contract

variable {a : Automaton} {d : Decomposition} {s : ClauseSystem}

/-- While no execution reaches the error location, what is known respects the visited datapoints. -/
def ofSafe (hwf : a.WellFormed) (hd : a.Decomposes d) (hs : s.Encodes a d)
    (hsafe : ¬a.ErrorReachable) (sig : Signature) (radius : Nat) : Contract BoundedSession s where
  learner := fun _ => True
  session := BoundedSession.Fresh sig radius
  candidates := fun _ => True
  reported := fun found => ∀ k ∈ found, k.Meets a.Visits
  knowledge := fun k => k.Respects a.Visits
  verdict := fun v => ∀ e, v ≠ .refuted e
  learner_call := fun _ _ => trivial
  candidates_call := fun _ _ => trivial
  session_check := fun h _ => Teacher.fresh_check _ h
  verdict_check := fun _ _ _ => nofun
  reported_check := by
    intro x cs found _ hcheck k hk
    obtain ⟨c, hc, hshown⟩ := Teacher.shown_of_check hcheck k hk
    rw [ClauseSystem.decls, hs.automaton_eq] at hshown
    exact Automaton.meets_visits hwf hd hs hsafe hc hshown
  knowledge_empty := ⟨Automaton.closed_visits, nofun, nofun⟩
  knowledge_simplify := fun h => ⟨h.closed, h.meets, h.labels⟩
  knowledge_insertAll := by
    intro k k' found n hk hfound hinsert
    obtain ⟨_, _, hinsert', hk'⟩ := hk.insertAll hfound
    cases hinsert.symm.trans hinsert'
    exact hk'
  verdict_insertAll := by
    intro k k' found e hk hfound hinsert
    obtain ⟨_, _, hinsert', -⟩ := hk.insertAll hfound
    cases hinsert.symm.trans hinsert'

end Contract

/-- Where inference with a bounded solver refutes a program, an execution reaches the error
location. -/
theorem error_reachable_of_refuted {description : Description} {a : Automaton} {s : ClauseSystem}
    {radius : Int64} {session : BoundedSession} {config : InferenceConfig} {e : Contradiction}
    (ha : Automaton.ofDescription description = .ok a) (hs : ClauseSystem.ofAutomaton a = .ok s)
    (hsession : BoundedSession.ofRadius? s.signature radius = some session)
    (h : Returns s config session (.refuted e)) : a.ErrorReachable := by
  obtain ⟨d, hd, hencodes⟩ := ClauseSystem.encodes_of_ofAutomaton hs
  have hwf := Automaton.wellFormed_of_ofDescription ha
  by_contra hsafe
  have hkeeps := h.keeps
    (.ofSafe hwf hd hencodes hsafe s.signature radius.toInt.natAbs) (fun _ => trivial)
    (BoundedSession.fresh_of_ofRadius? hsession)
  exact hkeeps e rfl

def havocLoop (start guard : Term) : Automaton where
  decls := [⟨"x", .int⟩]
  locations := ["start", "loop", "bad"]
  entry := 0
  error := 2
  edges := [⟨0, 1, [.havoc "x", .assume start]⟩, ⟨1, 1, []⟩, ⟨1, 2, [.assume guard]⟩]

def openLoop : Automaton := havocLoop (.lit true) (.rel .geq (.var "x") (.int 1))

/-- The error location is found by a learner that uses values and by two that use atoms. Both come
to the same contradiction: any value enters the loop, and the value 1 must not. -/
theorem openLoop_refuted :
    ∃ s session e, ClauseSystem.ofAutomaton openLoop = .ok s ∧
      BoundedSession.ofRadius? s.signature 1 = some session ∧
      (∀ config ∈ [({} : InferenceConfig), { learners := 2, teachers := 2, useAtoms := true }],
        Returns s config session (.refuted e)) ∧
      openLoop.ErrorReachable := by
  let one : Datapoint := ⟨1, .ofList [("x", .int 1)]⟩
  let e : Contradiction := ⟨[⟨[], some one, .clause 0⟩, ⟨[one], none, .clause 2⟩]⟩
  have ha : Automaton.ofDescription openLoop.describe = .ok openLoop := rfl
  have hinfer : ∃ s, ClauseSystem.ofAutomaton openLoop = .ok s ∧
      ∀ config ∈ [({} : InferenceConfig), { learners := 2, teachers := 2, useAtoms := true }],
        (infer s config
          (.ok { signature := s.signature, radius := 1 : BoundedSession })).1 = .ok (.refuted e) :=
    ⟨_, rfl, by decide +kernel⟩
  obtain ⟨s, hs, hinfer⟩ := hinfer
  have hreturns := fun config hconfig => Returns.of_infer (hinfer config hconfig)
  have hsession := BoundedSession.ofRadius?_eq_some s.signature
    (by decide : (1 : Int64) ≠ Int64.minValue)
  exact ⟨s, _, e, hs, hsession, hreturns,
    error_reachable_of_refuted ha hs hsession (hreturns {} List.mem_cons_self)⟩

/-! ## The box -/

/-- The declared variables have their sorts, and integers are at most a radius away from zero. -/
def State.Fits (decls : List VarDecl) (radius : Nat) (w : State) : Prop :=
  ∀ d ∈ decls, (w d.name).sort = d.sort ∧ ∀ i, w d.name = .int i → i.toInt.natAbs ≤ radius

theorem Signature.mem_of_get?_ofDecls {decls : List VarDecl} {x : String} {sort : VarSort}
    (h : (ofDecls decls).get? x = some sort) : ⟨x, sort⟩ ∈ decls := by
  obtain ⟨d, hd, heq⟩ := List.mem_map.1 (SortedMap.mem_of_get?_ofList h)
  cases heq
  exact hd

theorem BoundedSession.inBox_of_drawnFrom {decls : List VarDecl} {radius : Nat}
    (hplain : ∀ d ∈ decls, '@' ∉ d.name.toList) {w : State}
    (h : w.DrawnFrom (State.Fits decls radius)) : InBox (.ofDecls decls) radius w := by
  have hfits : ∀ {x sort u}, State.Fits decls radius u →
      (Signature.ofDecls decls).get? x = some sort → u x ∈ domain radius sort := by
    intro x sort u hu hx
    obtain ⟨hsort, hint⟩ := hu _ (Signature.mem_of_get?_ofDecls hx)
    exact mem_domain hsort hint
  intro n sort hsort
  obtain ⟨u, hu, hn | ⟨x, k, rfl, hn⟩⟩ := h n
  · rw [Signature.sortOf?_eq] at hsort
    rw [hn]
    exact hfits hu hsort
  · rw [hn]
    refine hfits hu (get?_of_sortOf?_versioned (fun y hy => ?_) hsort)
    obtain ⟨_, hy⟩ := Option.isSome_iff_exists.1 hy
    exact hplain _ (Signature.mem_of_get?_ofDecls hy)

/-! ## No errors in the box -/

/-- Learners that use observed values only, and candidates that no state of the box violates. -/
def Contract.ofValues (s : ClauseSystem) (sig : Signature) (radius : Nat) :
    Contract BoundedSession s where
  learner := fun l => l = .tree { decls := s.decls }
  session := BoundedSession.Fresh sig radius
  candidates := Candidates.DefinedOn (State.Fits s.decls radius)
  reported := fun _ => True
  knowledge := fun _ => True
  verdict := fun v => ∀ cs, v = .safe cs →
    cs.DefinedOn (State.Fits s.decls radius) ∧ ∀ c ∈ s.clauses, Teacher.Kept sig radius cs c
  learner_call := by
    rintro l rfl k
    rfl
  candidates_call := by
    rintro l k cs rfl hcall
    exact Learner.definedOn_of_call (fun u hu d hd => (hu d hd).1) hcall
  session_check := fun h _ => Teacher.fresh_check _ h
  verdict_check := by
    rintro x cs hx hcs hcheck _ ⟨⟩
    exact ⟨hcs, Teacher.kept_of_check hx hcheck⟩
  reported_check := fun _ _ => trivial
  knowledge_empty := trivial
  knowledge_simplify := fun _ => trivial
  knowledge_insertAll := fun _ _ _ => trivial
  verdict_insertAll := fun _ _ _ => nofun

/-- Candidates that no state of the box violates exclude errors in the box. -/
theorem error_unreachable_of_kept {a : Automaton} {d : Decomposition} {s : ClauseSystem}
    (hwf : a.WellFormed) (hd : a.Decomposes d) (hs : s.Encodes a d) {radius : Nat}
    {cs : Candidates} (hdefined : cs.DefinedOn (State.Fits a.decls radius))
    (hkept : ∀ c ∈ s.clauses, Teacher.Kept s.signature radius cs c) :
    ¬∃ s₀ trace u, a.Run s₀ trace a.error u ∧ ∀ w ∈ s₀ :: trace, State.Fits a.decls radius w := by
  rintro ⟨s₀, trace, u, hrun, hfits⟩
  obtain ⟨u', harrives⟩ := hrun.arrives hwf hd hfits
  have htrue : cs.evalIn u'.env .error = some true := by
    refine harrives.evalIn_eq_true hs (fun p v h => ?_) (fun c hc w hdrawn => ?_)
    · exact h.evalIn_ne_none hs fun l _ v h => hdefined.formula l v h.state_ok
    · refine hkept c hc w ?_
      rw [ClauseSystem.signature, ClauseSystem.decls, hs.automaton_eq]
      exact BoundedSession.inBox_of_drawnFrom
        (fun d hd => hwf.plain _ (List.mem_map_of_mem hd)) hdrawn
  cases htrue

/-- Where inference with a bounded solver and observed values finds a program safe, no execution in
the box reaches the error location. -/
theorem error_unreachable_of_safe {description : Description} {a : Automaton} {s : ClauseSystem}
    {radius : Int64} (ha : Automaton.ofDescription description = .ok a)
    (hs : ClauseSystem.ofAutomaton a = .ok s) (hradius : radius ≠ Int64.minValue) :
    ∃ session, BoundedSession.ofRadius? s.signature radius = some session ∧
      ∀ config cs, config.useAtoms = false → Returns s config session (.safe cs) →
        ¬∃ s₀ trace u, a.Run s₀ trace a.error u ∧
          ∀ w ∈ s₀ :: trace, State.Fits a.decls radius.toInt.natAbs w := by
  obtain ⟨d, hd, hencodes⟩ := ClauseSystem.encodes_of_ofAutomaton hs
  have hwf := Automaton.wellFormed_of_ofDescription ha
  have hdecls : s.decls = a.decls := by rw [ClauseSystem.decls, hencodes.automaton_eq]
  have hsession := BoundedSession.ofRadius?_eq_some s.signature hradius
  refine ⟨_, hsession, fun config cs hvalues h => ?_⟩
  have hlearner : ∀ n, config.learner s n = .tree { decls := s.decls } := by
    intro n
    rw [InferenceConfig.learner, hvalues]
    rfl
  obtain ⟨hdefined, hkept⟩ := h.keeps (.ofValues s s.signature radius.toInt.natAbs) hlearner
    (BoundedSession.fresh_of_ofRadius? hsession) cs rfl
  rw [hdecls] at hdefined
  exact error_unreachable_of_kept hwf hd hencodes hdefined hkept

def bandLoop : Automaton :=
  havocLoop (.rel .geq (.var "x") (.int 0))
    (.nary .or [.rel .lt (.var "x") (.int 0), .rel .gt (.var "x") (.int 2)])

/-- The loop is found safe in the box of radius 2, by one learner or by two. Outside of the box the
value 3 leads to the error location. -/
theorem bandLoop_safe :
    (∃ s session cs, ClauseSystem.ofAutomaton bandLoop = .ok s ∧
      BoundedSession.ofRadius? s.signature 2 = some session ∧
      (∀ config ∈ [({} : InferenceConfig), { learners := 2 }],
        Returns s config session (.safe cs)) ∧
      ¬∃ s₀ trace u, bandLoop.Run s₀ trace bandLoop.error u ∧
        ∀ w ∈ s₀ :: trace, State.Fits bandLoop.decls 2 w) ∧
    bandLoop.ErrorReachable := by
  constructor
  · have ha : Automaton.ofDescription bandLoop.describe = .ok bandLoop := rfl
    have hinfer : ∃ s, ClauseSystem.ofAutomaton bandLoop = .ok s ∧
        ∀ config ∈ [({} : InferenceConfig), { learners := 2 }],
          (infer s config
            (.ok { signature := s.signature, radius := 2 : BoundedSession })).1 =
              .ok (.safe (.const [[.rel .gt (.var "x") (.int (-1))]])) :=
      ⟨_, rfl, by decide +kernel⟩
    obtain ⟨s, hs, hinfer⟩ := hinfer
    have hreturns := fun config hconfig => Returns.of_infer (hinfer config hconfig)
    have hradius : (2 : Int64) ≠ Int64.minValue := by decide
    obtain ⟨session, hsession, hsafe⟩ := error_unreachable_of_safe ha hs hradius
    cases hsession.symm.trans (BoundedSession.ofRadius?_eq_some s.signature hradius)
    exact ⟨s, _, _, hs, hsession, hreturns, hsafe {} _ rfl (hreturns {} List.mem_cons_self)⟩
  · have hloop : bandLoop.Run (fun _ => .int 0) _ 1 _ :=
      .edge (e := ⟨0, 1, _⟩) .start List.mem_cons_self rfl
        (.cons (.havoc (.int 3)) (.cons (.assume (by decide)) (.nil _)))
    exact ⟨_, _, _, .edge (e := ⟨1, 2, _⟩) hloop
      (List.mem_cons_of_mem _ (List.mem_cons_of_mem _ List.mem_cons_self)) rfl
      (.cons (.assume (by decide)) (.nil _))⟩

end LoopInvariant
