import LoopInvariant.Proofs.BodyNames
import LoopInvariant.Proofs.Inquiries
import LoopInvariant.Proofs.ModelValues
/-!
# Failing paths

A path from the entry straight to the error location fails if its statements can be executed. The
search for such a path asks for a model of each simple clause. A model is cut down to the first
versions of the declared variables, with default values for those that the path does not mention. So
what is found is a state that the path can be executed from, and if nothing is found there is no
execution inside the box.
-/

namespace LoopInvariant

/-! ## Searches over lists -/

namespace Stateful

variable {ε σ α β : Type} {P : σ → Prop} {f : α → ExceptT ε (StateM σ) (Option β)} {as : List α}
variable {s : σ}

theorem exists_of_findSomeM?_some (hf : ∀ a, Keeps P (f a)) (hs : P s) {b : β}
    (h : (as.findSomeM? f s).1 = .ok (some b)) :
    ∃ a ∈ as, ∃ s', P s' ∧ (f a s').1 = .ok (some b) := by
  induction as generalizing s with
  | nil =>
    rw [List.findSomeM?_nil] at h
    cases h
  | cons a as ih =>
    rw [List.findSomeM?_cons] at h
    obtain ⟨r, hr, h⟩ := exists_of_bind h
    cases r with
    | none =>
      obtain ⟨a', ha', hfound⟩ := ih (hf a s hs) h
      exact ⟨a', List.mem_cons_of_mem a ha', hfound⟩
    | some b' =>
      cases h
      exact ⟨a, List.mem_cons_self, s, hs, hr⟩

theorem exists_of_findSomeM?_none (hf : ∀ a, Keeps P (f a)) (hs : P s)
    (h : (as.findSomeM? f s).1 = .ok none) {a : α} (ha : a ∈ as) :
    ∃ s', P s' ∧ (f a s').1 = .ok none := by
  induction as generalizing s with
  | nil => cases ha
  | cons a' as ih =>
    rw [List.findSomeM?_cons] at h
    obtain ⟨r, hr, h⟩ := exists_of_bind h
    cases r with
    | some b => cases h
    | none =>
      rcases List.mem_cons.1 ha with rfl | ha
      · exact ⟨s, hs, hr⟩
      · exact ih (hf a' s hs) h ha

theorem exists_findSomeM? (hf : ∀ a, Keeps P (f a)) (hs : P s)
    (hok : ∀ a ∈ as, ∀ s, P s → ∃ r, (f a s).1 = .ok r) :
    ∃ r, (as.findSomeM? f s).1 = .ok r := by
  induction as generalizing s with
  | nil =>
    rw [List.findSomeM?_nil]
    exact ⟨none, rfl⟩
  | cons a as ih =>
    obtain ⟨hhead, htail⟩ := List.forall_mem_cons.1 hok
    obtain ⟨r, hr⟩ := hhead s hs
    rw [List.findSomeM?_cons, bind_of_ok (Prod.ext hr rfl)]
    cases r with
    | none => exact ih (hf a s hs) htail
    | some b => exact ⟨some b, rfl⟩

end Stateful

/-! ## The questions of the search -/

namespace Teacher

variable {s : ClauseSystem} {session : BoundedSession}

def openingNames (s : ClauseSystem) : List String :=
  s.decls.map fun d => Indexing.initial.name d.name

def failing (s : ClauseSystem) (numbered : Clause × Nat) :
    SessionM BoundedSession (Option (Nat × Valuation)) :=
  match numbered.1.shape with
  | .simple => do
    let model ← Session.modelOf numbered.1.body (openingNames s)
    pure (model.map fun m => (numbered.2, initialValues m))
  | _ => pure none

theorem failingPath?_eq (s : ClauseSystem) :
    (failingPath? s : SessionM BoundedSession _) = s.clauses.zipIdx.findSomeM? (failing s) := rfl

theorem failing_of_simple {c : Clause} (hshape : c.shape = .simple) (i : Nat) :
    (failing s (c, i) session).1 = (Session.modelOf c.body (openingNames s) session).1.map
      (Option.map fun m => (i, initialValues m)) := by
  rw [failing]
  simp only [hshape]
  exact congrArg Prod.fst (Stateful.map_run _ _ _)

theorem failing_of_not_simple {c : Clause} (hshape : c.shape ≠ .simple) (i : Nat) :
    failing s (c, i) = pure none := by
  rw [failing]
  dsimp only
  split
  · next heq => exact absurd heq hshape
  · rfl

/-- Every question finds the assertions of the first session. -/
theorem keeps_failing (numbered : Clause × Nat) :
    Stateful.Keeps (fun s' => s'.opened = session.opened) (failing s numbered) := by
  rw [failing]
  split
  · refine Stateful.Keeps.bind (fun s' hs' => ?_) fun model s' hs' => hs'
    rw [BoundedSession.modelOf_run]
    exact hs'
  · exact Stateful.keeps_pure none

theorem modelOf_congr {s' : BoundedSession} (h : s'.opened = session.opened) (t : Term)
    (vars : List String) :
    (Session.modelOf t vars s').1 = (Session.modelOf t vars session).1 := by
  rw [BoundedSession.modelOf_run, BoundedSession.modelOf_run, h]

theorem failingPath?_eq_some {i : Nat} {init : Valuation}
    (h : (failingPath? s session).1 = .ok (some (i, init))) :
    ∃ c m, s.clauses[i]? = some c ∧ c.shape = .simple ∧ init = initialValues m ∧
      (Session.modelOf c.body (openingNames s) session).1 = .ok (some m) := by
  rw [failingPath?_eq] at h
  obtain ⟨numbered, hmem, s', hs', hfound⟩ :=
    Stateful.exists_of_findSomeM?_some keeps_failing (s := session) rfl h
  obtain ⟨c, j⟩ := numbered
  by_cases hshape : c.shape = .simple
  · rw [failing_of_simple hshape, modelOf_congr hs'] at hfound
    obtain ⟨model, hmodel, heq⟩ := map_eq_ok.1 hfound
    obtain ⟨m, rfl, hm⟩ := Option.map_eq_some_iff.1 heq
    cases hm
    exact ⟨c, m, List.mk_mem_zipIdx_iff_getElem?.1 hmem, hshape, rfl, hmodel⟩
  · rw [failing_of_not_simple hshape] at hfound
    cases hfound

theorem failingPath?_eq_none (h : (failingPath? s session).1 = .ok none) {c : Clause}
    (hc : c ∈ s.clauses) (hshape : c.shape = .simple) :
    (Session.modelOf c.body (openingNames s) session).1 = .ok none := by
  rw [failingPath?_eq] at h
  obtain ⟨i, hi⟩ := List.mem_iff_getElem?.1 hc
  obtain ⟨s', hs', hnone⟩ := Stateful.exists_of_findSomeM?_none keeps_failing (s := session) rfl h
    (List.mk_mem_zipIdx_iff_getElem?.2 hi)
  rw [failing_of_simple hshape, modelOf_congr hs'] at hnone
  obtain ⟨model, hmodel, heq⟩ := map_eq_ok.1 hnone
  rwa [Option.map_eq_none_iff.1 heq] at hmodel

theorem exists_failingPath?
    (h : ∀ c ∈ s.clauses, ∃ r, (Session.modelOf c.body (openingNames s) session).1 = .ok r) :
    ∃ r, (failingPath? s session).1 = .ok r := by
  rw [failingPath?_eq]
  refine Stateful.exists_findSomeM? keeps_failing (s := session) rfl ?_
  rintro ⟨c, i⟩ hmem s' hs'
  by_cases hshape : c.shape = .simple
  · obtain ⟨r, hr⟩ := h c (List.fst_mem_of_mem_zipIdx hmem)
    rw [failing_of_simple hshape, modelOf_congr hs', hr]
    exact ⟨_, rfl⟩
  · rw [failing_of_not_simple hshape]
    exact ⟨none, rfl⟩

theorem initialValues_eq (m : Valuation) :
    initialValues m = SortedMap.ofList
      (m.entries.filterMap fun e => (unversioned? e.1).map fun n => (n.1, e.2)) := rfl

theorem get?_initialValues {names : List String} {m : Valuation}
    (hm : ∀ n, (∃ v, m.get? n = some v) ↔ n ∈ names.map Indexing.initial.name) (x : String) :
    (initialValues m).get? x = if x ∈ names then m.get? (Indexing.initial.name x) else none := by
  have hfirst : ∀ z, unversioned? (Indexing.initial.name z) = some (z, 0) := fun z =>
    unversioned?_versioned z 0
  have hmem : ∀ y v, (y, v) ∈
      m.entries.filterMap (fun e => (unversioned? e.1).map fun n => (n.1, e.2)) ↔
        y ∈ names ∧ m.get? (Indexing.initial.name y) = some v := by
    intro y v
    rw [List.mem_filterMap]
    constructor
    · rintro ⟨⟨n, v'⟩, hentry, heq⟩
      rw [SortedMap.mem_entries_iff] at hentry
      obtain ⟨z, hz, rfl⟩ := List.mem_map.1 ((hm n).1 ⟨v', hentry⟩)
      rw [hfirst, Option.map_some] at heq
      cases heq
      exact ⟨hz, hentry⟩
    · rintro ⟨hy, hv⟩
      refine ⟨(Indexing.initial.name y, v), SortedMap.mem_entries_iff.2 hv, ?_⟩
      rw [hfirst, Option.map_some]
  rw [initialValues_eq]
  generalize m.entries.filterMap _ = es at hmem ⊢
  have hone : ∀ y v v', (y, v) ∈ es → (y, v') ∈ es → v = v' := fun y v v' hv hv' =>
    Option.some.inj (((hmem y v).1 hv).2.symm.trans ((hmem y v').1 hv').2)
  ext v
  rw [SortedMap.get?_ofList_eq_some_iff hone, hmem]
  by_cases hx : x ∈ names
  · simp [hx]
  · simp [hx]

end Teacher

/-! ## The executions found -/

theorem ClauseSystem.path_of_clause {a : Automaton} {s : ClauseSystem} {c : Clause}
    (hwf : a.WellFormed) (hs : ofAutomaton a = .ok s) (hc : c ∈ s.clauses) :
    a.Path (c.pre.loc a) c.edges (c.post.loc a) := by
  obtain ⟨-, d, hd, hclauses, -⟩ := mem_clauses_of_ofAutomaton hs
  obtain ⟨seg, hseg, hof⟩ := hclauses c hc
  have hencodes := Clause.encodes_of_ofSegment hof
  rw [Clause.edges_of_ofSegment hof, hencodes.pre_eq, hencodes.post_eq]
  exact hd.path hwf hseg

/-- A clause whose edges lead from the entry to the error location, and values for the declared
variables from which their statements can be executed, whatever other names stand for. -/
structure Clause.FailsFrom (c : Clause) (a : Automaton) (init : Valuation) : Prop where
  simple : c.shape = .simple
  path : a.Path a.entry c.edges a.error
  declared : ∀ x, (∃ v, init.get? x = some v) ↔ x ∈ a.names
  executes : ∀ u : State, (∀ x v, init.get? x = some v → u x = v) →
    ∃ trace u', Executes (c.edges.flatMap a.stmts) u trace u' ∧ a.Run u trace a.error u'

namespace ClauseSystem

variable {a : Automaton} {s : ClauseSystem} {c : Clause} {session : BoundedSession}

theorem names_decls (hs : ofAutomaton a = .ok s) : s.decls.map (·.name) = a.names := by
  rw [decls, (mem_clauses_of_ofAutomaton hs).1, Automaton.names]

theorem openingNames_eq (hs : ofAutomaton a = .ok s) :
    Teacher.openingNames s = a.names.map Indexing.initial.name := by
  rw [← names_decls hs, Teacher.openingNames, List.map_map]
  rfl

theorem path_of_simple (hwf : a.WellFormed) (hs : ofAutomaton a = .ok s) (hc : c ∈ s.clauses)
    (hshape : c.shape = .simple) : a.Path a.entry c.edges a.error := by
  have hpath := path_of_clause hwf hs hc
  rw [Clause.pre, Clause.post, hshape] at hpath
  exact hpath

/-- A model of the body of a simple clause starts an execution. -/
theorem failsFrom_of_model (hwf : a.WellFormed) (hs : ofAutomaton a = .ok s) (hc : c ∈ s.clauses)
    (hshape : c.shape = .simple) {m : Valuation}
    (hmodel : (Session.modelOf c.body (Teacher.openingNames s) session).1 = .ok (some m)) :
    c.FailsFrom a (Teacher.initialValues m) := by
  have hpath := path_of_simple hwf hs hc hshape
  rw [openingNames_eq hs] at hmodel
  have hassigns : ∀ n, (∃ v, m.get? n = some v) ↔ n ∈ a.names.map Indexing.initial.name :=
    BoundedSession.assigns_model_iff (Prod.ext (Session.model_of_modelOf hmodel).2 rfl)
  obtain ⟨w, hbody, hvalues⟩ := BoundedSession.modelOf_eq_some hmodel
  have hinit : ∀ x, (Teacher.initialValues m).get? x =
      if x ∈ a.names then some (Indexing.initial.view w x) else none := by
    intro x
    rw [Teacher.get?_initialValues hassigns]
    split
    · next hx => exact hvalues _ (List.mem_map_of_mem hx)
    · rfl
  refine ⟨hshape, hpath, fun x => ?_, fun u hu => ?_⟩
  · rw [hinit]
    split
    · next hx => simp [hx]
    · next hx => simp [hx]
  · obtain ⟨trace, hexecutes⟩ := executes_of_body hs hc hbody
    -- the model and the state differ outside the declared variables, which no statement mentions
    have hagree : ∀ x ∈ a.names, Indexing.initial.view w x = u x := fun x hx =>
      (hu x _ (by rw [hinit, if_pos hx])).symm
    obtain ⟨trace', u', hexecutes', -⟩ := hexecutes.frame
      (fun st hst x hx => Automaton.mem_names_of_stmts hwf hst hx) hagree
    exact ⟨trace', u', hexecutes', hpath.run .start hexecutes'⟩

/-- Without a model of a body in the box, every execution of the clause leaves the box. -/
theorem leaves_box_of_no_model (hwf : a.WellFormed) (hs : ofAutomaton a = .ok s)
    (hsignature : session.signature = s.signature) (hempty : session.conjuncts = [])
    (hc : c ∈ s.clauses) {vars : List String}
    (hmodel : (Session.modelOf c.body vars session).1 = .ok none) {u u' : State}
    {trace : List State} (hexecutes : Executes (c.edges.flatMap a.stmts) u trace u') :
    ∃ w ∈ u :: trace, ¬w.Fits a.decls session.radius := by
  by_contra hall
  push Not at hall
  obtain ⟨hautomaton, d, -, hclauses, -⟩ := mem_clauses_of_ofAutomaton hs
  obtain ⟨seg, -, hof⟩ := hclauses c hc
  rw [Clause.edges_of_ofSegment hof] at hexecutes
  obtain ⟨hfirst, hlater⟩ := List.forall_mem_cons.1 hall
  obtain ⟨w, hbody, -, -, hdrawn⟩ :=
    (Clause.encodes_of_ofSegment hof).exists_body hexecutes hfirst hlater
  have hbox := BoundedSession.inBox_of_drawnFrom
    (fun d hd => hwf.plain _ (List.mem_map_of_mem hd)) hdrawn
  rw [← hautomaton] at hbox
  exact BoundedSession.modelOf_eq_none hempty hmodel (hsignature ▸ hbox) hbody

theorem exists_model_of_body (hwf : a.WellFormed) (hs : ofAutomaton a = .ok s)
    (hlength : (a.edges.flatMap (·.stmts)).length < 18446744073709551616)
    (hsignature : session.signature = s.signature) (hempty : session.conjuncts = [])
    (hcanceled : session.canceled = false) (hc : c ∈ s.clauses) :
    ∃ r, (Session.modelOf c.body (Teacher.openingNames s) session).1 = .ok r := by
  obtain ⟨d, hd, hencodes⟩ := encodes_of_ofAutomaton hs
  obtain ⟨seg, hseg, hclause⟩ := hencodes.of_clause c hc
  have hreadable := hclause.readable hwf hd hlength hseg
  have hsorts : ∀ y ∈ a.names, ∀ k < 18446744073709551616,
      ∃ sort, session.signature.sortOf? (versioned y k) = some sort := by
    intro y hy k hk
    rw [hsignature]
    exact s.exists_sortOf?_versioned (names_decls hs ▸ hy) hk
  apply BoundedSession.exists_modelOf hcanceled
  · simp [hempty]
  · intro x hx
    obtain ⟨y, hy, k, hk, rfl⟩ := Clause.mem_vars_body hwf hs hc (Term.mem_vars_iff.1 hx)
    exact hsorts y hy k (Nat.lt_of_le_of_lt hk (hreadable y))
  · intro x hx
    rw [openingNames_eq hs] at hx
    obtain ⟨y, hy, rfl⟩ := List.mem_map.1 hx
    exact hsorts y hy 0 (by omega)

end ClauseSystem

/-- In a session in which nothing is asserted the search for a failing path comes to an end. What it
finds is a path that fails from the values it gives, and if it finds nothing, no path straight to
the error location can be executed inside the box. -/
theorem failing_paths_are_executions {description : Description} {a : Automaton} {s : ClauseSystem}
    (ha : Automaton.ofDescription description = .ok a) (hs : ClauseSystem.ofAutomaton a = .ok s)
    (session : BoundedSession) (hsignature : session.signature = s.signature)
    (hempty : session.conjuncts = []) (hcanceled : session.canceled = false) :
    ((a.edges.flatMap (·.stmts)).length < 18446744073709551616 →
      ∃ r, (Teacher.failingPath? s session).1 = .ok r) ∧
    (∀ i init, (Teacher.failingPath? s session).1 = .ok (some (i, init)) →
      ∃ c, s.clauses[i]? = some c ∧ c.FailsFrom a init) ∧
    ((Teacher.failingPath? s session).1 = .ok none → ∀ c ∈ s.clauses, c.shape = .simple →
      ∀ u trace u', Executes (c.edges.flatMap a.stmts) u trace u' →
        ∃ w ∈ u :: trace, ¬w.Fits a.decls session.radius) := by
  have hwf := Automaton.wellFormed_of_ofDescription ha
  refine ⟨fun hlength => ?_, fun i init hfound => ?_, fun hnone c hc hshape u trace u' h => ?_⟩
  · apply Teacher.exists_failingPath?
    intro c hc
    exact ClauseSystem.exists_model_of_body hwf hs hlength hsignature hempty hcanceled hc
  · obtain ⟨c, m, hi, hshape, rfl, hmodel⟩ := Teacher.failingPath?_eq_some hfound
    have hc := List.mem_of_getElem? hi
    exact ⟨c, hi, ClauseSystem.failsFrom_of_model hwf hs hc hshape hmodel⟩
  · have hmodel := Teacher.failingPath?_eq_none hnone hc hshape
    exact ClauseSystem.leaves_box_of_no_model hwf hs hsignature hempty hc hmodel h

def guardedJump (bound : Int64) : Automaton where
  decls := [⟨"b", .bool⟩, ⟨"x", .int⟩]
  locations := ["start", "bad"]
  entry := 0
  error := 1
  edges := [⟨0, 1, [.assume (.rel .geq (.var "x") (.int bound))]⟩]

/-- In the box from -1 to 1 the bound 1 is met and the bound 2 is not. -/
theorem guardedJump_failing :
    (∃ (s : ClauseSystem) (c : Clause), ClauseSystem.ofAutomaton (guardedJump 1) = .ok s ∧
      (Teacher.failingPath? s { signature := s.signature, radius := 1 : BoundedSession }).1 =
        .ok (some (0, .ofList [("b", .bool false), ("x", .int 1)])) ∧
      c.FailsFrom (guardedJump 1) (.ofList [("b", .bool false), ("x", .int 1)])) ∧
    ∃ (s : ClauseSystem) (c : Clause), ClauseSystem.ofAutomaton (guardedJump 2) = .ok s ∧
      s.clauses = [c] ∧
      (Teacher.failingPath? s { signature := s.signature, radius := 1 : BoundedSession }).1 =
        .ok none ∧
      ∀ u trace u', Executes (c.edges.flatMap (guardedJump 2).stmts) u trace u' →
        ∃ w ∈ u :: trace, ¬w.Fits (guardedJump 2).decls 1 := by
  constructor
  · have ha : Automaton.ofDescription (guardedJump 1).describe = .ok (guardedJump 1) := rfl
    have hfound : ∃ s, ClauseSystem.ofAutomaton (guardedJump 1) = .ok s ∧
        (Teacher.failingPath? s { signature := s.signature, radius := 1 : BoundedSession }).1 =
          .ok (some (0, .ofList [("b", .bool false), ("x", .int 1)])) :=
      ⟨_, rfl, by decide +kernel⟩
    obtain ⟨s, hs, hfound⟩ := hfound
    obtain ⟨-, hfails, -⟩ := failing_paths_are_executions ha hs
      { signature := s.signature, radius := 1 } rfl rfl rfl
    obtain ⟨c, -, hc⟩ := hfails _ _ hfound
    exact ⟨s, c, hs, hfound, hc⟩
  · have ha : Automaton.ofDescription (guardedJump 2).describe = .ok (guardedJump 2) := rfl
    have hnone : ∃ s c, ClauseSystem.ofAutomaton (guardedJump 2) = .ok s ∧ s.clauses = [c] ∧
        c.shape = .simple ∧
        (Teacher.failingPath? s { signature := s.signature, radius := 1 : BoundedSession }).1 =
          .ok none :=
      ⟨_, _, rfl, rfl, rfl, by decide +kernel⟩
    obtain ⟨s, c, hs, hclauses, hshape, hnone⟩ := hnone
    obtain ⟨-, -, hleaves⟩ := failing_paths_are_executions ha hs
      { signature := s.signature, radius := 1 } rfl rfl rfl
    exact ⟨s, c, hs, hclauses, hnone, hleaves hnone c (hclauses ▸ List.mem_cons_self) hshape⟩

end LoopInvariant
