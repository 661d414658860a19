import LoopInvariant.Proofs.Clause
import Mathlib.Data.List.Chain
import Mathlib.Data.List.Induction
/-!
# Clauses encode reachability

The error location can be reached exactly when there is a chain of clauses from the entry to the
error location whose bodies are true, each with the values that the one before ended with. A chain
may leave values out where the bodies do not need them, but there is always one that has them all.
-/

namespace LoopInvariant

theorem Clause.exists_head {c c' : Clause} (h : c.post = c'.pre) :
    ∃ l, c.post = .head l ∧ c'.pre = .head l := by
  revert h
  rw [post, pre]
  cases c.shape <;> cases c'.shape <;> rintro ⟨⟩ <;> exact ⟨_, rfl, rfl⟩

/-! ## Finite parts of states -/

namespace State

def restrict (w : State) (names : List String) : Valuation :=
  SortedMap.ofList (names.filterMap fun n => (w.env n).map fun v => (n, v))

theorem get?_restrict (w : State) (names : List String) (n : String) :
    (w.restrict names).get? n = if n ∈ names then some (w n) else none :=
  SortedMap.get?_ofList_graph

theorem evalBool_restrict (w : State) {names : List String} {t : Term}
    (h : ∀ n ∈ t.occurrences, n ∈ names) :
    t.evalBool (w.restrict names).get? = t.evalBool w.env :=
  Term.evalBool_congr fun n hn => by rw [get?_restrict, if_pos (h n hn), env]

end State

/-! ## Chains -/

/-- A clause and the values of versioned names. -/
structure Link where
  clause : Clause
  valuation : Valuation

namespace Link

def Holds (l : Link) : Prop := l.clause.body.evalBool l.valuation.get? = some true

def Precedes (names : List String) (l m : Link) : Prop :=
  (∃ h, l.clause.post = .head h ∧ m.clause.pre = .head h) ∧
    ∀ x ∈ names, l.valuation.get? (l.clause.indexing.name x) = m.valuation.get? (versioned x 0)

def Complete (names : List String) (l : Link) : Prop :=
  ∀ x ∈ names, ∀ k ≤ l.clause.indexing.get x, ∃ v, l.valuation.get? (versioned x k) = some v

end Link

namespace ClauseSystem

/-- A chain of clauses from the entry to an endpoint. -/
structure Chain (s : ClauseSystem) (p : Endpoint) (ls : List Link) : Prop where
  clauses : ∀ l ∈ ls, l.clause ∈ s.clauses
  holds : ∀ l ∈ ls, l.Holds
  starts : ∃ l, ls.head? = some l ∧ l.clause.pre = .entry
  linked : ls.IsChain (Link.Precedes s.automaton.names)
  ends : ∃ l, ls.getLast? = some l ∧ l.clause.post = p

variable {s : ClauseSystem} {p q : Endpoint} {ls : List Link} {l : Link}

theorem Chain.single (hc : l.clause ∈ s.clauses) (hl : l.Holds) (hpre : l.clause.pre = .entry) :
    s.Chain l.clause.post [l] :=
  ⟨List.forall_mem_singleton.2 hc, List.forall_mem_singleton.2 hl, ⟨l, rfl, hpre⟩,
    List.IsChain.singleton l, ⟨l, rfl, rfl⟩⟩

theorem Chain.snoc (h : s.Chain p ls) {m : Link} (hm : ls.getLast? = some m)
    (hprecedes : m.Precedes s.automaton.names l) (hc : l.clause ∈ s.clauses) (hl : l.Holds) :
    s.Chain l.clause.post (ls ++ [l]) := by
  refine ⟨List.forall_mem_append.2 ⟨h.clauses, List.forall_mem_singleton.2 hc⟩,
    List.forall_mem_append.2 ⟨h.holds, List.forall_mem_singleton.2 hl⟩, ?_, ?_,
    ⟨l, by simp, rfl⟩⟩
  · obtain ⟨k, hk, hpre⟩ := h.starts
    exact ⟨k, by rw [List.head?_append, hk]; rfl, hpre⟩
  · refine List.isChain_append.2 ⟨h.linked, List.IsChain.singleton l, ?_⟩
    intro x hx y hy
    rw [hm, Option.mem_some_iff] at hx
    rw [List.head?_singleton, Option.mem_some_iff] at hy
    exact hx ▸ hy ▸ hprecedes

theorem Chain.of_snoc (h : s.Chain p (ls ++ [l])) :
    l.clause ∈ s.clauses ∧ l.Holds ∧ l.clause.post = p ∧
      (ls = [] ∧ l.clause.pre = .entry ∨
        ∃ m, ls.getLast? = some m ∧ m.Precedes s.automaton.names l ∧ s.Chain m.clause.post ls) := by
  obtain ⟨hclauses, hc⟩ := List.forall_mem_append.1 h.clauses
  obtain ⟨hholds, hl⟩ := List.forall_mem_append.1 h.holds
  obtain ⟨hlinked, -, hlast⟩ := List.isChain_append.1 h.linked
  obtain ⟨k, hk, hpost⟩ := h.ends
  rw [List.getLast?_concat, Option.some.injEq] at hk
  subst hk
  refine ⟨hc l List.mem_cons_self, hl l List.mem_cons_self, hpost, ?_⟩
  obtain ⟨j, hj, hpre⟩ := h.starts
  cases hm : ls.getLast? with
  | none =>
    rw [List.getLast?_eq_none_iff] at hm
    subst hm
    cases hj
    exact .inl ⟨rfl, hpre⟩
  | some m =>
    refine .inr ⟨m, rfl, hlast m hm l rfl, hclauses, hholds, ⟨j, ?_, hpre⟩, hlinked, m, hm, rfl⟩
    cases ls with
    | nil => cases hm
    | cons _ _ => exact hj

end ClauseSystem

/-! ## Chains are executions -/

namespace Link

/-- The values of a link, with some value for every name it leaves out. -/
def fill (l : Link) : State := fun n => (l.valuation.get? n).getD default

theorem evalBool_fill {l : Link} (h : l.Holds) : l.clause.body.evalBool l.fill.env = some true := by
  refine Term.evalBool_mono (fun n v hn => ?_) h
  rw [State.env, fill, hn, Option.getD_some]

theorem Precedes.fill_eq {names : List String} {l m : Link} (h : l.Precedes names m) {x : String}
    (hx : x ∈ names) : l.clause.indexing.view l.fill x = Indexing.initial.view m.fill x :=
  congrArg (·.getD default) (h.2 x hx)

end Link

namespace Automaton

variable {a : Automaton} {d : Decomposition} {s : ClauseSystem} {p : Endpoint}

theorem mem_names_of_stmts (hwf : a.WellFormed) {es : List Nat} {st : Statement}
    (hst : st ∈ es.flatMap a.stmts) {x : String} (hx : x ∈ st.mentions) : x ∈ a.names := by
  obtain ⟨e, he, hst⟩ := exists_edge_of_stmts hst
  exact hwf.declared e he st hst x hx

/-- A chain arrives where it ends, with the values of its last link. -/
theorem arrives_of_chain (hwf : a.WellFormed) (hs : s.Encodes a d) {ls : List Link}
    (h : s.Chain p ls) :
    ∃ l u, ls.getLast? = some l ∧ a.Arrives d (fun _ => True) p u ∧
      ∀ x ∈ a.names, l.clause.indexing.view l.fill x = u x := by
  induction ls using List.reverseRecOn generalizing p with
  | nil =>
    obtain ⟨l, hl, -⟩ := h.starts
    cases hl
  | append_singleton ls l ih =>
    obtain ⟨hc, hl, rfl, hbefore⟩ := h.of_snoc
    obtain ⟨seg, hseg, hencodes⟩ := hs.of_clause _ hc
    -- the execution of the last body, from where the links before arrive
    have hstart : ∃ u, a.Arrives d (fun _ => True) l.clause.pre u ∧
        ∀ x ∈ a.names, Indexing.initial.view l.fill x = u x := by
      rcases hbefore with ⟨-, hpre⟩ | ⟨m, hm, hprecedes, hchain⟩
      · rw [hpre]
        exact ⟨_, .start trivial, fun _ _ => rfl⟩
      · obtain ⟨m', u, hm', harrives, hagree⟩ := ih hchain
        cases hm.symm.trans hm'
        obtain ⟨h, hpost, hpre⟩ := hprecedes.1
        rw [hpre, ← hpost]
        rw [hs.automaton_eq] at hprecedes
        exact ⟨u, harrives, fun x hx => (hprecedes.fill_eq hx).symm.trans (hagree x hx)⟩
    obtain ⟨u, harrives, hagree⟩ := hstart
    obtain ⟨trace, hstmts⟩ := hencodes.executes (Link.evalBool_fill hl)
    obtain ⟨trace', u', hstmts', hagree'⟩ :=
      hstmts.frame (fun st hst x => mem_names_of_stmts hwf hst) hagree
    rw [hencodes.pre_eq] at harrives
    refine ⟨l, u', List.getLast?_concat, ?_, hagree'⟩
    rw [hencodes.post_eq]
    exact .segment harrives hseg hstmts' fun _ _ => trivial

/-! ## Executions are chains -/

def linkNames (a : Automaton) (c : Clause) : List String :=
  c.body.occurrences ++
    a.names.flatMap fun x => (List.range (c.indexing.get x + 1)).map (versioned x)

theorem versioned_mem_linkNames {c : Clause} {x : String} (hx : x ∈ a.names) {k : Nat}
    (hk : k ≤ c.indexing.get x) : versioned x k ∈ a.linkNames c :=
  List.mem_append_right _ (List.mem_flatMap.2
    ⟨x, hx, List.mem_map.2 ⟨k, List.mem_range.2 (Nat.lt_succ_of_le hk), rfl⟩⟩)

theorem get?_linkNames {c : Clause} (w : State) {x : String} (hx : x ∈ a.names) {k : Nat}
    (hk : k ≤ c.indexing.get x) :
    (w.restrict (a.linkNames c)).get? (versioned x k) = some (w (versioned x k)) := by
  rw [State.get?_restrict, if_pos (versioned_mem_linkNames hx hk)]

theorem holds_restrict {c : Clause} {w : State} (hbody : c.body.evalBool w.env = some true) :
    Link.Holds ⟨c, w.restrict (a.linkNames c)⟩ := by
  have hnames : ∀ n ∈ c.body.occurrences, n ∈ a.linkNames c := fun n => List.mem_append_left _
  exact (w.evalBool_restrict hnames).trans hbody

theorem complete_restrict (c : Clause) (w : State) :
    Link.Complete a.names ⟨c, w.restrict (a.linkNames c)⟩ :=
  fun _ hx _ hk => ⟨_, get?_linkNames w hx hk⟩

/-- Beyond the entry, an execution in segments is a chain of complete links that ends with the
state. -/
theorem Arrives.exists_chain {ok : State → Prop} (hs : s.Encodes a d)
    {u : State} (h : a.Arrives d ok p u) :
    p = .entry ∨ ∃ ls l, s.Chain p ls ∧ (∀ l ∈ ls, l.Complete a.names) ∧ ls.getLast? = some l ∧
      ∀ x ∈ a.names, l.valuation.get? (l.clause.indexing.name x) = some (u x) := by
  induction h with
  | start => exact .inl rfl
  | @segment u u' seg trace h hseg hstmts hok ih =>
    obtain ⟨c, hc, hencodes⟩ := hs.of_segment seg hseg
    obtain ⟨w, hbody, hbefore, hafter, -⟩ := hencodes.exists_body hstmts h.state_ok hok
    have hholds := holds_restrict (a := a) hbody
    have hfirst : ∀ x ∈ a.names,
        (w.restrict (a.linkNames c)).get? (versioned x 0) = some (u x) := by
      intro x hx
      rw [get?_linkNames w hx (Nat.zero_le _), ← hbefore]
      rfl
    have hlast : ∀ x ∈ a.names,
        (w.restrict (a.linkNames c)).get? (c.indexing.name x) = some (u' x) := by
      intro x hx
      rw [Indexing.name, get?_linkNames w hx (Nat.le_refl _), ← hafter]
      rfl
    rw [← hencodes.post_eq]
    rcases ih with hentry | ⟨ls, m, hchain, hcomplete, hm, hvalues⟩
    · refine .inr ⟨[⟨c, _⟩], ⟨c, _⟩, .single hc hholds (hencodes.pre_eq.trans hentry), ?_, rfl, hlast⟩
      exact List.forall_mem_singleton.2 (complete_restrict c w)
    · obtain ⟨m', hm', hpost⟩ := hchain.ends
      cases hm.symm.trans hm'
      have hhead := Clause.exists_head (hpost.trans hencodes.pre_eq.symm)
      refine .inr ⟨ls ++ [⟨c, _⟩], ⟨c, _⟩, hchain.snoc hm ⟨hhead, ?_⟩ hc hholds, ?_,
        List.getLast?_concat, hlast⟩
      · rw [hs.automaton_eq]
        intro x hx
        rw [hvalues x hx, hfirst x hx]
      · exact List.forall_mem_append.2 ⟨hcomplete,
          List.forall_mem_singleton.2 (complete_restrict c w)⟩

end Automaton

/-! ## The encoding -/

theorem ClauseSystem.mem_invariants {s : ClauseSystem} {l : Loc} :
    l ∈ s.invariants ↔ ∃ c ∈ s.clauses, c.pre = .head l ∨ c.post = .head l := by
  have hhead : ∀ p : Endpoint, l ∈ p.head?.toList ↔ p = .head l := by
    intro p
    cases p <;> simp [Endpoint.head?, eq_comm]
  simp only [invariants, SortedSet.mem_toList_ofList, List.mem_flatMap, Clause.sites,
    List.mem_eraseDups, List.mem_append, hhead]

/-- Candidates have a truth value wherever an execution in segments arrives, if they have one at
the loop heads in the states that executions have there. -/
theorem Automaton.Arrives.evalIn_ne_none {a : Automaton} {d : Decomposition} {s : ClauseSystem}
    {ok : State → Prop} (hs : s.Encodes a d) {cs : Candidates}
    (hdefined : ∀ l ∈ s.invariants, ∀ u, a.Arrives d ok (.head l) u →
      (cs.formula l).evalBool u.env ≠ none)
    {p : Endpoint} {u : State} (h : a.Arrives d ok p u) : cs.evalIn u.env p ≠ none := by
  cases h with
  | start => exact Option.some_ne_none true
  | @segment _ _ seg _ h hseg hstmts hok =>
    obtain ⟨c, hc, hencodes⟩ := hs.of_segment seg hseg
    cases hstop : seg.stop with
    | entry => exact Option.some_ne_none true
    | error => exact Option.some_ne_none false
    | head l =>
      have hl : l ∈ s.invariants :=
        ClauseSystem.mem_invariants.2 ⟨c, hc, .inr (hencodes.post_eq.trans hstop)⟩
      exact hdefined l hl u (hstop ▸ .segment h hseg hstmts hok)

/-- The clauses of an automaton are a sound and complete encoding of reachability, and candidates
that no valuation violates exclude errors. -/
theorem clauses_encode_reachability {description : Description} {a : Automaton} {s : ClauseSystem}
    (ha : Automaton.ofDescription description = .ok a) (hs : ClauseSystem.ofAutomaton a = .ok s) :
    (a.ErrorReachable ↔ ∃ ls, s.Chain .error ls) ∧
      (a.ErrorReachable → ∃ ls, s.Chain .error ls ∧ ∀ l ∈ ls, l.Complete a.names) ∧
      ∀ cs : Candidates,
        (∀ l ∈ s.invariants, ∀ s₀ trace u, a.Run s₀ trace l u →
          (cs.formula l).evalBool u.env ≠ none) →
        (∀ c ∈ s.clauses, ∀ v : Valuation, (c.violation cs).evalBool v.get? ≠ some true) →
        ¬a.ErrorReachable := by
  have hwf := Automaton.wellFormed_of_ofDescription ha
  obtain ⟨d, hd, hs⟩ := ClauseSystem.encodes_of_ofAutomaton hs
  have hcut : a.ErrorReachable → ∃ u, a.Arrives d (fun _ => True) .error u := by
    rintro ⟨s₀, trace, u, hrun⟩
    exact hrun.arrives hwf hd fun _ _ => trivial
  have hcomplete : a.ErrorReachable →
      ∃ ls, s.Chain .error ls ∧ ∀ l ∈ ls, l.Complete a.names := by
    intro hreach
    obtain ⟨u, harrives⟩ := hcut hreach
    rcases harrives.exists_chain hs with hentry | ⟨ls, l, hchain, hcomplete, -⟩
    · cases hentry
    · exact ⟨ls, hchain, hcomplete⟩
  refine ⟨⟨fun hreach => ?_, ?_⟩, hcomplete, ?_⟩
  · obtain ⟨ls, hchain, -⟩ := hcomplete hreach
    exact ⟨ls, hchain⟩
  · rintro ⟨ls, hchain⟩
    obtain ⟨l, u, -, harrives, -⟩ := Automaton.arrives_of_chain hwf hs hchain
    obtain ⟨s₀, trace, hrun, -⟩ := harrives.run hwf hd
    exact ⟨s₀, trace, u, hrun⟩
  · intro cs hdefined hclauses hreach
    obtain ⟨u, harrives⟩ := hcut hreach
    have htrue : cs.evalIn u.env .error = some true := by
      refine harrives.evalIn_eq_true hs (fun p u h => ?_) fun c hc w _ => ?_
      · refine h.evalIn_ne_none hs fun l hl u harrives => ?_
        obtain ⟨s₀, trace, hrun, -⟩ := harrives.run hwf hd
        exact hdefined l hl s₀ trace u hrun
      · rw [← w.evalBool_restrict fun n hn => hn]
        exact hclauses c hc _
    cases htrue

def countingLoop (guard : Term) : Automaton where
  decls := [⟨"x", .int⟩]
  locations := ["start", "loop", "bad"]
  entry := 0
  error := 2
  edges := [⟨0, 1, [.assign "x" (.int 0)]⟩,
    ⟨1, 1, [.assign "x" (.arith .add (.var "x") (.int 1))]⟩, ⟨1, 2, [.assume guard]⟩]

/-- Under the guard `x >= 1` the error location is reached after one round, so there is a chain of
clauses. Under `false` it is not, because no valuation violates the trivial candidates. -/
theorem countingLoop_encoding :
    (∃ s, ClauseSystem.ofAutomaton (countingLoop (.rel .geq (.var "x") (.int 1))) = .ok s ∧
      (countingLoop (.rel .geq (.var "x") (.int 1))).ErrorReachable ∧
      ∃ ls, s.Chain .error ls) ∧
    ¬(countingLoop (.lit false)).ErrorReachable := by
  constructor
  · have hd : Automaton.ofDescription (countingLoop (.rel .geq (.var "x") (.int 1))).describe =
        .ok (countingLoop (.rel .geq (.var "x") (.int 1))) := rfl
    have hreach : (countingLoop (.rel .geq (.var "x") (.int 1))).ErrorReachable := by
      have hstart : (countingLoop (.rel .geq (.var "x") (.int 1))).Run (fun _ => .int 0) _ 1 _ :=
        .edge (e := ⟨0, 1, _⟩) .start List.mem_cons_self rfl (.cons (.assign rfl) (.nil _))
      have hround : (countingLoop (.rel .geq (.var "x") (.int 1))).Run (fun _ => .int 0) _ 1 _ :=
        .edge (e := ⟨1, 1, _⟩) hstart (List.mem_cons_of_mem _ List.mem_cons_self) rfl
          (.cons (.assign rfl) (.nil _))
      exact ⟨_, _, _, .edge (e := ⟨1, 2, _⟩) hround
        (List.mem_cons_of_mem _ (List.mem_cons_of_mem _ List.mem_cons_self)) rfl
        (.cons (.assume (by decide)) (.nil _))⟩
    exact ⟨_, rfl, hreach, (clauses_encode_reachability hd rfl).1.1 hreach⟩
  · have hd : Automaton.ofDescription (countingLoop (.lit false)).describe =
        .ok (countingLoop (.lit false)) := rfl
    have hclauses : ∃ s, ClauseSystem.ofAutomaton (countingLoop (.lit false)) = .ok s ∧
        ∀ c ∈ s.clauses, c.violation .top = .lit false := ⟨_, rfl, by decide +kernel⟩
    obtain ⟨s, hs, hfalse⟩ := hclauses
    refine (clauses_encode_reachability hd hs).2.2 .top (fun l _ s₀ trace u _ => ?_) fun c hc v => ?_
    · exact Option.some_ne_none true
    · rw [hfalse c hc, Term.evalBool_lit]
      exact Option.some_inj.not.2 Bool.false_ne_true

end LoopInvariant
