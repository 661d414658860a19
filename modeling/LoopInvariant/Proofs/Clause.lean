import LoopInvariant.Proofs.Segment
import LoopInvariant.Proofs.Unrolling
/-!
# Clauses and the executions of segments

There is a clause for every segment and no other, and its body is true exactly of the executions of
the segment. Candidates that no clause violates are true of every state in which a loop head is
reached, provided that they have a truth value there.
-/

namespace LoopInvariant

/-! ## One clause for each segment -/

theorem ClauseShape.between?_eq_some {p q : Endpoint} {shape : ClauseShape}
    (h : between? p q = some shape) : shape.pre = p ∧ shape.post = q := by
  revert h
  cases p <;> cases q <;> rintro ⟨⟩ <;> exact ⟨rfl, rfl⟩

structure Clause.Encodes (c : Clause) (a : Automaton) (seg : Segment) : Prop where
  pre_eq : c.pre = seg.start
  post_eq : c.post = seg.stop
  body_eq : c.body = (unroll .initial (seg.edges.flatMap a.stmts)).1
  indexing_eq : c.indexing = (effects .initial (seg.edges.flatMap a.stmts)).2

theorem Clause.encodes_of_ofSegment {a : Automaton} {seg : Segment} {c : Clause}
    (h : ofSegment a seg = .ok c) : c.Encodes a seg := by
  rw [ofSegment] at h
  split at h
  · cases h
  · next shape hshape =>
    cases h
    obtain ⟨hpre, hpost⟩ := ClauseShape.between?_eq_some hshape
    exact ⟨hpre, hpost, rfl, rfl⟩

theorem Clause.edges_of_ofSegment {a : Automaton} {seg : Segment} {c : Clause}
    (h : ofSegment a seg = .ok c) : c.edges = seg.edges := by
  rw [ofSegment] at h
  split at h
  · cases h
  · cases h
    rfl

/-- What a clause system is to the automaton and the decomposition it was built from. -/
structure ClauseSystem.Encodes (s : ClauseSystem) (a : Automaton) (d : Decomposition) : Prop where
  automaton_eq : s.automaton = a
  of_clause : ∀ c ∈ s.clauses, ∃ seg ∈ d.segments, c.Encodes a seg
  of_segment : ∀ seg ∈ d.segments, ∃ c ∈ s.clauses, c.Encodes a seg

theorem ClauseSystem.mem_clauses_of_ofAutomaton {a : Automaton} {s : ClauseSystem}
    (h : ofAutomaton a = .ok s) :
    s.automaton = a ∧ ∃ d, a.Decomposes d ∧
      (∀ c ∈ s.clauses, ∃ seg ∈ d.segments, Clause.ofSegment a seg = .ok c) ∧
      ∀ seg ∈ d.segments, ∃ c ∈ s.clauses, Clause.ofSegment a seg = .ok c := by
  obtain ⟨d, hd, h⟩ := bind_eq_ok.1 h
  obtain ⟨cs, hcs, h⟩ := bind_eq_ok.1 h
  obtain ⟨hmem, hall⟩ := mem_of_mapM_eq_ok hcs
  have hclauses : ∀ c, c ∈ s.clauses ↔ c ∈ cs := by
    cases h
    intro c
    simp only [clauses, List.mem_append, List.mem_filter]
    cases c.shape <;> simp
  have hautomaton : s.automaton = a := by
    cases h
    rfl
  refine ⟨hautomaton, d, Automaton.decomposes hd, fun c hc => ?_, fun seg hseg => ?_⟩
  · exact (hmem c).1 ((hclauses c).1 hc)
  · obtain ⟨c, hof⟩ := hall seg hseg
    exact ⟨c, (hclauses c).2 ((hmem c).2 ⟨seg, hseg, hof⟩), hof⟩

theorem ClauseSystem.encodes_of_ofAutomaton {a : Automaton} {s : ClauseSystem}
    (h : ofAutomaton a = .ok s) : ∃ d, a.Decomposes d ∧ s.Encodes a d := by
  obtain ⟨hautomaton, d, hd, hclauses, hsegments⟩ := mem_clauses_of_ofAutomaton h
  refine ⟨d, hd, hautomaton, fun c hc => ?_, fun seg hseg => ?_⟩
  · obtain ⟨seg, hseg, hof⟩ := hclauses c hc
    exact ⟨seg, hseg, Clause.encodes_of_ofSegment hof⟩
  · obtain ⟨c, hc, hof⟩ := hsegments seg hseg
    exact ⟨c, hc, Clause.encodes_of_ofSegment hof⟩

/-! ## Bodies are executions -/

/-- Every name has a value that its variable takes in some state with a property. -/
def State.DrawnFrom (ok : State → Prop) (w : State) : Prop :=
  ∀ n, ∃ u, ok u ∧
    (w n = u (ClauseSystem.baseName n) ∨ ∃ x k, n = versioned x k ∧ w n = u x)

namespace Clause.Encodes

variable {a : Automaton} {seg : Segment} {c : Clause}

theorem executes (h : c.Encodes a seg) {w : State} (hbody : c.body.evalBool w.env = some true) :
    ∃ trace, Executes (seg.edges.flatMap a.stmts) (Indexing.initial.view w) trace
      (c.indexing.view w) := by
  rw [h.body_eq, evalBool_unroll] at hbody
  rw [h.indexing_eq]
  exact executes_of_effects hbody

theorem exists_body (h : c.Encodes a seg) {ok : State → Prop} {s s' : State} {trace : List State}
    (hstmts : Executes (seg.edges.flatMap a.stmts) s trace s') (hs : ok s)
    (hok : ∀ u ∈ trace, ok u) :
    ∃ w : State, c.body.evalBool w.env = some true ∧ Indexing.initial.view w = s ∧
      c.indexing.view w = s' ∧ w.DrawnFrom ok := by
  obtain ⟨w, hprolongs, htrue, hlast⟩ := exists_effects hstmts s.view_spread
  refine ⟨w, ?_, hprolongs.view_eq.trans s.view_spread, ?_, fun n => ?_⟩
  · rw [h.body_eq, evalBool_unroll]
    exact htrue
  · rw [h.indexing_eq]
    exact hlast
  · rcases hprolongs.taken n with hn | ⟨u, hu, hn⟩
    · exact ⟨s, hs, .inl hn⟩
    · exact ⟨u, hok u hu, .inr hn⟩

end Clause.Encodes

/-! ## Violations -/

namespace Candidates

/-- The truth value of candidates at an endpoint: nothing is asked of the entry, and the error
location is excluded. -/
def evalIn (cs : Candidates) (env : Env) : Endpoint → Option Bool
  | .entry => some true
  | .error => some false
  | .head l => (cs.formula l).evalBool env

end Candidates

/-- What a clause asks of the formulas at its ends: one is true before it and one false after it,
where the clause starts and stops at a loop head. -/
theorem Clause.evalBool_violationWith (c : Clause) (cs : Candidates) (instead : Dnf) (env : Env) :
    (c.violationWith cs instead).evalBool env = some true ↔
      c.body.evalBool env = some true ∧
      (∀ l, c.pre = .head l →
        (cs.dnfOr instead l).toTerm.evalBool (fun x => env (Indexing.initial.name x)) =
          some true) ∧
      ∀ l, c.post = .head l →
        (cs.dnfOr instead l).toTerm.evalBool (fun x => env (c.indexing.name x)) = some false := by
  have hinv : ∀ (ix : Indexing) (l : Loc),
      (ix.instantiate (cs.dnfOr instead l).toTerm).evalBool env =
        (cs.dnfOr instead l).toTerm.evalBool fun x => env (ix.name x) := by
    intro ix l
    rw [Term.evalBool, Indexing.instantiate, Term.eval_rename]
    rfl
  rw [violationWith, pre, post]
  cases c.shape with
  | fact q =>
    simp [ClauseShape.pre, ClauseShape.post, Term.evalBool_conj_eq_true_iff, hinv,
      Term.evalBool_complement]
  | step p q =>
    simp [ClauseShape.pre, ClauseShape.post, Term.evalBool_conj_eq_true_iff, hinv,
      Term.evalBool_complement, and_left_comm]
  | query p =>
    simp [ClauseShape.pre, ClauseShape.post, Term.evalBool_conj_eq_true_iff, hinv, and_comm]
  | simple => simp [ClauseShape.pre, ClauseShape.post]

/-- A clause is violated where the candidates hold before, the body is true and they are false
after, also where some variables have no value. -/
theorem Clause.evalBool_violation_env (c : Clause) (cs : Candidates) (env : Env) :
    (c.violation cs).evalBool env = some true ↔
      cs.evalIn (fun x => env (Indexing.initial.name x)) c.pre = some true ∧
        c.body.evalBool env = some true ∧
        cs.evalIn (fun x => env (c.indexing.name x)) c.post = some false := by
  rw [violation, evalBool_violationWith, and_left_comm, pre, post]
  cases c.shape <;> simp [ClauseShape.pre, ClauseShape.post, Candidates.evalIn, Candidates.formula,
    Candidates.dnf]

theorem Clause.evalBool_violation (c : Clause) (cs : Candidates) (w : State) :
    (c.violation cs).evalBool w.env = some true ↔
      cs.evalIn (Indexing.initial.view w).env c.pre = some true ∧
        c.body.evalBool w.env = some true ∧
        cs.evalIn (c.indexing.view w).env c.post = some false :=
  c.evalBool_violation_env cs w.env

theorem Executes.last_mem {stmts : List Statement} {s s' : State} {trace : List State}
    (h : Executes stmts s trace s') : s' = s ∨ s' ∈ trace := by
  induction h with
  | nil => exact .inl rfl
  | cons _ _ ih =>
    rcases ih with rfl | hmem
    · exact .inr List.mem_cons_self
    · exact .inr (List.mem_cons_of_mem _ hmem)

namespace Automaton

variable {a : Automaton} {d : Decomposition} {ok : State → Prop}

theorem Arrives.state_ok {p : Endpoint} {s : State} (h : a.Arrives d ok p s) : ok s := by
  induction h with
  | start hs => exact hs
  | segment _ _ hstmts hok ih =>
    rcases hstmts.last_mem with rfl | hmem
    · exact ih
    · exact hok _ hmem

/-- Candidates that no clause violates, in states with a property, are true wherever an execution
through such states arrives. -/
theorem Arrives.evalIn_eq_true {s : ClauseSystem} (hs : s.Encodes a d) {cs : Candidates}
    (hdefined : ∀ p u, a.Arrives d ok p u → cs.evalIn u.env p ≠ none)
    (hclauses : ∀ c ∈ s.clauses, ∀ w : State, w.DrawnFrom ok →
      (c.violation cs).evalBool w.env ≠ some true)
    {p : Endpoint} {u : State} (h : a.Arrives d ok p u) : cs.evalIn u.env p = some true := by
  induction h with
  | start => rfl
  | @segment u u' seg trace h hseg hstmts hok ih =>
    obtain ⟨c, hc, hencodes⟩ := hs.of_segment seg hseg
    obtain ⟨w, hbody, hbefore, hafter, hdrawn⟩ := hencodes.exists_body hstmts h.state_ok hok
    have hnot := hclauses c hc w hdrawn
    rw [ne_eq, c.evalBool_violation, hencodes.pre_eq, hencodes.post_eq, hbefore, hafter] at hnot
    have hne := hdefined _ _ (.segment h hseg hstmts hok)
    match hvalue : cs.evalIn u'.env seg.stop with
    | none => exact absurd hvalue hne
    | some false => exact absurd ⟨ih, hbody, hvalue⟩ hnot
    | some true => rfl

end Automaton

end LoopInvariant
