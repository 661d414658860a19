import LoopInvariant.Proofs.Progress
/-!
# What a counterexample shows

The violation of a clause is about three things: the body, the formula where the clause starts and
the formula where it stops, each in its own versions of the variables. A model of a violation is
therefore an execution between two states, one inside the candidates and one outside. The constraint
that is reported has the declared variables of these two states and nothing else.
-/

namespace LoopInvariant

/-! ## Formulas in projections -/

namespace Clause

variable {names : List String} {ix : Indexing}

theorem evalBool_project {t : Term} (ht : ∀ x ∈ t.vars, x ∈ names) (v : Valuation) :
    t.evalBool (project names ix v).get? = t.evalBool fun x => v.get? (ix.name x) :=
  Term.evalBool_congr fun x hx => get?_project (ht x (Term.mem_vars_iff.2 hx))

/-- The violation of a clause is true of versioned variables exactly if the body is, the formula
before is true of the first versions, if the clause starts at a loop head, and the formula after is
false of the last versions, if it stops at one. The versions can be taken out as a valuation of
names that include the variables of the formulas. -/
theorem violation_is_failure_at_ends (c : Clause) (cs : Candidates) (instead : Dnf) :
    (∀ env : Env, (c.violationWith cs instead).evalBool env = some true ↔
      c.body.evalBool env = some true ∧
      (∀ l, c.pre = .head l →
        (cs.dnfOr instead l).toTerm.evalBool (fun x => env (Indexing.initial.name x)) =
          some true) ∧
      ∀ l, c.post = .head l →
        (cs.dnfOr instead l).toTerm.evalBool (fun x => env (c.indexing.name x)) = some false) ∧
    ∀ (v : Valuation) (names : List String),
      (∀ l, ∀ x ∈ (cs.dnfOr instead l).toTerm.vars, x ∈ names) →
      ((c.violationWith cs instead).evalBool v.get? = some true ↔
        c.body.evalBool v.get? = some true ∧
        (∀ l, c.pre = .head l →
          (cs.dnfOr instead l).toTerm.evalBool (project names .initial v).get? = some true) ∧
        ∀ l, c.post = .head l →
          (cs.dnfOr instead l).toTerm.evalBool (project names c.indexing v).get? =
            some false) := by
  refine ⟨c.evalBool_violationWith cs instead, fun v names hnames => ?_⟩
  simp only [c.evalBool_violationWith, evalBool_project (hnames _)]

def increment : Clause where
  shape := .step 1 2
  body := .bin .equals (.var "x@1") (.arith .add (.var "x@0") (.int 1))
  indexing := Indexing.initial.bump "x"
  edges := [0]

/-- Candidates name the formula before the step only. It holds of 0 and the one after fails of 1. -/
theorem increment_violated :
    let atMost (i : Int64) : Dnf := [[.rel .leq (.var "x") (.int i)]]
    let cs : Candidates := { sites := SortedMap.ofList [(1, atMost 4)], fallback := [] }
    let v : Valuation := SortedMap.ofList [("x@0", .int 0), ("x@1", .int 1)]
    (increment.violationWith cs (atMost 0)).evalBool v.get? = some true ∧
      (cs.dnfOr (atMost 0) 1).toTerm.evalBool (project ["x"] .initial v).get? = some true ∧
      (cs.dnfOr (atMost 0) 2).toTerm.evalBool (project ["x"] increment.indexing v).get? =
        some false := by
  intro atMost cs v
  have hnames : ∀ l, ∀ x ∈ (cs.dnfOr (atMost 0) l).toTerm.vars, x ∈ ["x"] := by
    intro l x hx
    by_cases hl : l = 1
    · subst hl
      exact hx
    · have hnone : cs.sites.get? l = none := SortedMap.get?_insert_of_ne _ _ hl
      rw [Candidates.dnfOr, hnone] at hx
      exact hx
  have hiff := (violation_is_failure_at_ends increment cs (atMost 0)).2 v ["x"] hnames
  have htrue : (increment.violationWith cs (atMost 0)).evalBool v.get? = some true := by
    decide +kernel
  obtain ⟨-, hpre, hpost⟩ := hiff.1 htrue
  exact ⟨htrue, hpre 1 rfl, hpost 2 rfl⟩

end Clause

/-! ## Counterexamples as executions -/

/-- A state of versioned variables in which the body is true is an execution of the statements on
the edges that the clause was made from. -/
theorem ClauseSystem.executes_of_body {a : Automaton} {s : ClauseSystem}
    (hs : ofAutomaton a = .ok s) {c : Clause} (hc : c ∈ s.clauses) {w : State}
    (hbody : c.body.evalBool w.env = some true) :
    ∃ trace, Executes (c.edges.flatMap a.stmts) (Indexing.initial.view w) trace
      (c.indexing.view w) := by
  obtain ⟨-, d, -, hclauses, -⟩ := mem_clauses_of_ofAutomaton hs
  obtain ⟨seg, -, hof⟩ := hclauses c hc
  rw [Clause.edges_of_ofSegment hof]
  exact (Clause.encodes_of_ofSegment hof).executes hbody

/-- A datapoint has the values of some names in a state, and no others. -/
def Datapoint.Records (names : List String) (p : Datapoint) (u : State) : Prop :=
  ∀ x, p.valuation.get? x = if x ∈ names then some (u x) else none

namespace Datapoint.Records

variable {names : List String} {p : Datapoint} {u u' : State}

theorem exists_get?_iff (h : p.Records names u) (x : String) :
    (∃ v, p.valuation.get? x = some v) ↔ x ∈ names := by
  rw [h x]
  split
  · next hx => simp [hx]
  · next hx => simp [hx]

theorem congr (h : p.Records names u) (hagree : ∀ x ∈ names, u x = u' x) :
    p.Records names u' := by
  intro x
  rw [h x]
  split
  · next hx => rw [hagree x hx]
  · rfl

theorem evalBool_eq (h : p.Records names u) {t : Term} (ht : ∀ x ∈ t.vars, x ∈ names) :
    t.evalBool p.valuation.get? = t.evalBool u.env := by
  refine Term.evalBool_congr fun x hx => ?_
  rw [h x, if_pos (ht x (Term.mem_vars_iff.2 hx)), State.env]

end Datapoint.Records

/-- A constraint that shows how a clause takes a state inside the candidates to one outside.
Whatever values other names have, the statements of the clause lead from the source to the target. A
clause from the entry has no source and starts in some state, and one to the error location has no
target and stops in some state. -/
structure Constraint.Genuine (k : Constraint) (a : Automaton) (cs : Candidates) (c : Clause) :
    Prop where
  sources_eq : k.sources.map (·.site) = c.pre.head?.toList
  target_eq : k.target.map (·.site) = c.post.head?
  assigns : ∀ p ∈ k.datapoints, ∀ x, (∃ v, p.valuation.get? x = some v) ↔ x ∈ a.names
  executes : ∀ others : State, ∃ u trace u', Executes (c.edges.flatMap a.stmts) u trace u' ∧
    (∀ x, x ∉ a.names → u x = others x) ∧ (∀ p ∈ k.sources, p.Records a.names u) ∧
    ∀ p, k.target = some p → p.Records a.names u'
  refuted : cs.RefutedBy k

namespace Clause

variable {a : Automaton} {c : Clause} {cs : Candidates} {w : State} {m : Valuation}

theorem records_project {names : List String} {ix : Indexing} (l : Loc)
    (hvalues : ∀ x ∈ names, m.get? (ix.name x) = some (w (ix.name x))) :
    Datapoint.Records names ⟨l, project names ix m⟩ (ix.view w) := by
  intro x
  rw [project, SortedMap.get?_ofList_graph]
  split
  · next hx => exact hvalues x hx
  · rfl

theorem sources_sites {names : List String} (i : Nat) :
    (c.counterexample i names m).sources.map (·.site) = c.pre.head?.toList := by
  rw [counterexample, List.map_map]
  exact List.map_id _

theorem target_site {names : List String} (i : Nat) :
    (c.counterexample i names m).target.map (·.site) = c.post.head? := by
  rw [counterexample, Option.map_map]
  exact congrFun Option.map_id _

/-- A constraint that is read off a violation is a counterexample. -/
theorem genuine_counterexample (hwf : a.WellFormed)
    (hcs : ∀ l, ∀ x ∈ (cs.formula l).vars, x ∈ a.names)
    (hviolated : (c.violation cs).evalBool w.env = some true)
    (hexecutes : ∃ trace, Executes (c.edges.flatMap a.stmts) (Indexing.initial.view w) trace
      (c.indexing.view w))
    (hvalues : ∀ x ∈ c.observed a.names, m.get? x = some (w x)) (i : Nat) :
    (c.counterexample i a.names m).Genuine a cs c := by
  obtain ⟨hpre, -, hpost⟩ := (c.evalBool_violation cs w).1 hviolated
  have hsource : ∀ p ∈ (c.counterexample i a.names m).sources, c.pre = .head p.site ∧
      p.Records a.names (Indexing.initial.view w) := by
    intro p hp
    obtain ⟨l, hl, rfl⟩ := mem_sources_counterexample hp
    exact ⟨hl, records_project l fun x hx => hvalues _ (mem_observed_of_pre hl hx)⟩
  have htarget : ∀ p, (c.counterexample i a.names m).target = some p → c.post = .head p.site ∧
      p.Records a.names (c.indexing.view w) := by
    intro p hp
    obtain ⟨l, hl, rfl⟩ := target_counterexample hp
    exact ⟨hl, records_project l fun x hx => hvalues _ (mem_observed_of_post hl hx)⟩
  refine ⟨sources_sites i, target_site i, fun p hp => ?_, fun others => ?_, fun p hp => ?_,
    fun p hp => ?_⟩
  · rcases List.mem_append.1 hp with hp | hp
    · exact (hsource p hp).2.exists_get?_iff
    · exact (htarget p (Option.mem_toList.1 hp)).2.exists_get?_iff
  · obtain ⟨trace, hstmts⟩ := hexecutes
    -- the statements mention declared names only, so the values of the others do not matter
    obtain ⟨trace', u', hstmts', hagree⟩ := hstmts.frame
      (t := fun x => if x ∈ a.names then Indexing.initial.view w x else others x)
      (fun st hst x => Automaton.mem_names_of_stmts hwf hst) fun x hx => (if_pos hx).symm
    refine ⟨_, trace', u', hstmts', fun x hx => if_neg hx, fun p hp => ?_, fun p hp => ?_⟩
    · exact (hsource p hp).2.congr fun x hx => (if_pos hx).symm
    · exact (htarget p hp).2.congr hagree
  · obtain ⟨hl, hrecords⟩ := hsource p hp
    rw [hl] at hpre
    exact (hrecords.evalBool_eq (hcs _)).trans hpre
  · obtain ⟨hl, hrecords⟩ := htarget p hp
    rw [hl] at hpost
    exact (hrecords.evalBool_eq (hcs _)).trans hpost

end Clause

/-- Every constraint that is reported against candidates over declared variables is a counterexample
of the clause that it names. This holds for bounded sessions of any declarations and any radius,
also where formulas have been asserted. -/
theorem reported_constraints_are_genuine {description : Description} {a : Automaton}
    {s : ClauseSystem} (ha : Automaton.ofDescription description = .ok a)
    (hs : ClauseSystem.ofAutomaton a = .ok s) {cs : Candidates}
    (hcs : ∀ l, ∀ x ∈ (cs.formula l).vars, x ∈ a.names) (session : BoundedSession)
    {found : List Constraint}
    (hcheck : ((Teacher.check s cs : SessionM BoundedSession _) session).1 = .ok (some found)) :
    ∀ k ∈ found, ∃ i c, k.origin = .clause i ∧ s.clauses[i]? = some c ∧ k.Genuine a cs c := by
  intro k hk
  obtain ⟨c, i, w, m, hmem, hviolated, hvalues, rfl⟩ := Teacher.violated_of_check hcheck k hk
  have hnames : s.decls.map (·.name) = a.names := by
    rw [ClauseSystem.decls, (ClauseSystem.mem_clauses_of_ofAutomaton hs).1, Automaton.names]
  rw [hnames] at hvalues ⊢
  obtain ⟨-, hbody, -⟩ := (c.evalBool_violation cs w).1 hviolated
  have hexecutes := ClauseSystem.executes_of_body hs (List.fst_mem_of_mem_zipIdx hmem) hbody
  exact ⟨i, c, rfl, List.mk_mem_zipIdx_iff_getElem?.1 hmem,
    Clause.genuine_counterexample (Automaton.wellFormed_of_ofDescription ha) hcs hviolated hexecutes
      hvalues i⟩

/-- A loop that any value enters and a positive one leaves for the error location. That it holds
positive values only is refuted at both ends. -/
theorem openLoop_genuine :
    ∃ s session k k' c c', ClauseSystem.ofAutomaton openLoop = .ok s ∧
      BoundedSession.ofRadius? s.signature 1 = some session ∧
      let cs : Candidates := .const [[.rel .geq (.var "x") (.int 1)]]
      (Teacher.check s cs session).1 = .ok (some [k, k']) ∧
      k.sources = [] ∧ k.Genuine openLoop cs c ∧ k'.target = none ∧ k'.Genuine openLoop cs c' := by
  let cs : Candidates := .const [[.rel .geq (.var "x") (.int 1)]]
  let k : Constraint := ⟨[], some ⟨1, .ofList [("x", .int 0)]⟩, .clause 0⟩
  let k' : Constraint := ⟨[⟨1, .ofList [("x", .int 1)]⟩], none, .clause 2⟩
  have ha : Automaton.ofDescription openLoop.describe = .ok openLoop := rfl
  have hcheck : ∃ s, ClauseSystem.ofAutomaton openLoop = .ok s ∧
      (Teacher.check s cs { signature := s.signature, radius := 1 : BoundedSession }).1 =
        .ok (some [k, k']) :=
    ⟨_, rfl, by decide +kernel⟩
  obtain ⟨s, hs, hcheck⟩ := hcheck
  have hsession := BoundedSession.ofRadius?_eq_some s.signature
    (by decide : (1 : Int64) ≠ Int64.minValue)
  have hnames : ∀ l, ∀ x ∈ (cs.formula l).vars, x ∈ openLoop.names := by
    intro l x hx
    have hvars : (cs.formula l).vars = ["x"] := rfl
    rwa [hvars] at hx
  have hgenuine := reported_constraints_are_genuine ha hs hnames _ hcheck
  obtain ⟨_, c, -, -, hk⟩ := hgenuine k List.mem_cons_self
  obtain ⟨_, c', -, -, hk'⟩ := hgenuine k' (List.mem_cons_of_mem _ List.mem_cons_self)
  exact ⟨s, _, k, k', c, c', hs, hsession, hcheck, rfl, hk, rfl, hk'⟩

end LoopInvariant
