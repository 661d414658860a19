import LoopInvariant.Proofs.Clause
import LoopInvariant.Proofs.ValueTree
import Mathlib.Data.List.Flatten
import Mathlib.Data.List.Perm.Subperm
/-!
# Well-sorted programs

A term has a sort if its operands have the sorts that its operators take. Whatever has a value then
has one of that sort. Unrolling keeps sorts as long as version numbers are read back, which they are
below `2 ^ 64`: no edge is taken twice on a segment, so a version number is at most the number of
statements.
-/

namespace LoopInvariant

/-! ## Sorts of terms -/

def Connective.Takes : Connective → VarSort → Prop
  | equals, _ | notEquals, _ => True
  | implies, sort | iff, sort => sort = .bool

namespace Term

inductive HasSort (σ : String → Option VarSort) : Term → VarSort → Prop where
  | lit (b : Bool) : HasSort σ (lit b) .bool
  | int (i : Int64) : HasSort σ (int i) .int
  | var {x : String} {sort : VarSort} (hx : σ x = some sort) : HasSort σ (var x) sort
  | not {t : Term} (ht : HasSort σ t .bool) : HasSort σ (not t) .bool
  | neg {t : Term} (ht : HasSort σ t .int) : HasSort σ (neg t) .int
  | bin (op : Connective) {l r : Term} {sort : VarSort} (hop : op.Takes sort)
      (hl : HasSort σ l sort) (hr : HasSort σ r sort) : HasSort σ (bin op l r) .bool
  | arith (op : Arith) {l r : Term} (hl : HasSort σ l .int) (hr : HasSort σ r .int) :
      HasSort σ (arith op l r) .int
  | rel (op : Relation) {l r : Term} (hl : HasSort σ l .int) (hr : HasSort σ r .int) :
      HasSort σ (rel op l r) .bool
  | nary (op : Junction) {ts : List Term} (hts : ∀ t ∈ ts, HasSort σ t .bool) :
      HasSort σ (nary op ts) .bool
  | ite {c t e : Term} {sort : VarSort} (hc : HasSort σ c .bool) (ht : HasSort σ t sort)
      (he : HasSort σ e sort) : HasSort σ (ite c t e) sort

variable {σ τ : String → Option VarSort} {t : Term} {sort : VarSort}

theorem renameList_eq_map (f : String → String) (ts : List Term) :
    renameList f ts = ts.map (rename f) := by
  induction ts with
  | nil => rfl
  | cons t ts ih => rw [renameList, ih, List.map_cons]

theorem mem_occurrencesList {x : String} {ts : List Term} :
    x ∈ occurrencesList ts ↔ ∃ t ∈ ts, x ∈ t.occurrences := by
  induction ts with
  | nil => simp [occurrencesList]
  | cons t ts ih => simp [occurrencesList, ih]

theorem mem_conjunctsList {c : Term} {ts : List Term} :
    c ∈ conjunctsList ts ↔ ∃ t ∈ ts, c ∈ t.conjuncts := by
  induction ts with
  | nil => simp [conjunctsList]
  | cons t ts ih => simp [conjunctsList, ih]

theorem HasSort.rename (h : t.HasSort σ sort) {f : String → String}
    (hf : ∀ x s, σ x = some s → τ (f x) = some s) : (t.rename f).HasSort τ sort := by
  induction h with
  | lit b => exact .lit b
  | int i => exact .int i
  | var hx => exact .var (hf _ _ hx)
  | not _ ih => exact .not ih
  | neg _ ih => exact .neg ih
  | bin op hop _ _ ihl ihr => exact .bin op hop ihl ihr
  | arith op _ _ ihl ihr => exact .arith op ihl ihr
  | rel op _ _ ihl ihr => exact .rel op ihl ihr
  | nary op _ ih =>
    rw [Term.rename, renameList_eq_map]
    exact .nary op (List.forall_mem_map.2 ih)
  | ite _ _ _ ihc iht ihe => exact .ite ihc iht ihe

theorem HasSort.of_occurrences (h : t.HasSort σ sort) {x : String} (hx : x ∈ t.occurrences) :
    ∃ s, σ x = some s := by
  induction h with
  | lit | int => cases hx
  | var hsort =>
    cases List.mem_singleton.1 hx
    exact ⟨_, hsort⟩
  | not _ ih | neg _ ih => exact ih hx
  | bin _ _ _ _ ihl ihr | arith _ _ _ ihl ihr | rel _ _ _ ihl ihr =>
    exact (List.mem_append.1 hx).elim ihl ihr
  | nary op _ ih =>
    obtain ⟨t, ht, hx⟩ := mem_occurrencesList.1 hx
    exact ih t ht hx
  | ite _ _ _ ihc iht ihe =>
    rcases List.mem_append.1 hx with hx | hx
    · exact (List.mem_append.1 hx).elim ihc iht
    · exact ihe hx

theorem HasSort.conjuncts (h : t.HasSort σ sort) {c : Term} (hc : c ∈ t.conjuncts) :
    c.HasSort σ sort := by
  -- only a conjunction is opened; any other term is its own conjunct
  have hself := h
  induction h with
  | lit b =>
    cases b with
    | true => cases hc
    | false =>
      cases List.mem_singleton.1 hc
      exact hself
  | nary op hts ih =>
    cases op with
    | and =>
      obtain ⟨t, ht, hc⟩ := mem_conjunctsList.1 hc
      exact ih t ht hc (hts t ht)
    | or =>
      cases List.mem_singleton.1 hc
      exact hself
  | int | var | not | neg | bin | arith | rel | ite =>
    cases List.mem_singleton.1 hc
    exact hself

theorem HasSort.complement (h : t.HasSort σ .bool) : t.complement.HasSort σ .bool := by
  cases h with
  | lit b => exact .lit _
  | not ht => exact ht
  | bin op hop hl hr =>
    cases op with
    | equals => exact .bin .notEquals trivial hl hr
    | notEquals => exact .bin .equals trivial hl hr
    | implies | iff => exact .not (.bin _ hop hl hr)
  | rel op hl hr => exact .rel op.negate hl hr
  | var hx => exact .not (.var hx)
  | nary op hts => exact .not (.nary op hts)
  | ite hc ht he => exact .not (.ite hc ht he)

theorem hasSort_flatten (op : Junction) {ts : List Term} (h : ∀ t ∈ ts, t.HasSort σ .bool) :
    ∀ t ∈ flatten op ts, t.HasSort σ .bool := by
  intro u hu
  obtain ⟨t, ht, ⟨us, rfl, hu⟩ | ⟨-, rfl⟩⟩ := mem_flatten_iff.1 hu
  · cases h _ ht with
    | nary _ hus => exact hus u hu
  · exact h u ht

theorem hasSort_junction (op : Junction) {ts : List Term} (h : ∀ t ∈ ts, t.HasSort σ .bool) :
    (junction op ts).HasSort σ .bool := by
  have hkept : ∀ t ∈ flatten op (ts.filter (· ≠ lit !op.absorbing)), t.HasSort σ .bool :=
    hasSort_flatten op fun t ht => h t (List.mem_filter.1 ht).1
  rw [junction]
  split
  · exact .lit _
  · split
    · exact .lit _
    · next t heq => exact hkept t (heq ▸ List.mem_cons_self)
    · exact .nary op hkept

end Term

/-! ## Sorts of values -/

def Env.Sorted (σ : String → Option VarSort) (env : Env) : Prop :=
  ∀ x a, env x = some a → σ x = some a.sort

theorem Term.HasSort.sort_eval {σ : String → Option VarSort} {t : Term} {sort : VarSort}
    (h : t.HasSort σ sort) {env : Env} (henv : env.Sorted σ) {v : Value}
    (hv : t.eval env = some v) : v.sort = sort := by
  induction h generalizing v with
  | lit | int =>
    cases hv
    rfl
  | var hx =>
    have hsort := henv _ _ hv
    rw [hx] at hsort
    exact (Option.some.inj hsort).symm
  | not | bin | nary =>
    obtain ⟨b, -, rfl⟩ := Option.map_eq_some_iff.1 hv
    rfl
  | neg =>
    obtain ⟨i, -, hv⟩ := Option.bind_eq_some_iff.1 hv
    obtain ⟨j, -, rfl⟩ := Option.map_eq_some_iff.1 hv
    rfl
  | arith =>
    rw [Term.eval] at hv
    split at hv
    · obtain ⟨i, -, rfl⟩ := Option.map_eq_some_iff.1 hv
      rfl
    · cases hv
  | rel =>
    rw [Term.eval] at hv
    split at hv
    · cases hv
      rfl
    · cases hv
  | ite _ _ _ _ iht ihe =>
    rw [Term.eval] at hv
    split at hv
    · exact iht hv
    · exact ihe hv
    · split at hv
      · next a b ha _ =>
        split at hv
        · cases hv
          exact iht ha
        · cases hv
      · cases hv

/-! ## Programs -/

def Statement.WellSorted (σ : String → Option VarSort) : Statement → Prop
  | .assign x t => ∃ sort, σ x = some sort ∧ t.HasSort σ sort
  | .assume t => t.HasSort σ .bool
  | .havoc _ => True

def Automaton.WellSorted (a : Automaton) : Prop :=
  ∀ e ∈ a.edges, ∀ st ∈ e.stmts, st.WellSorted (Signature.ofDecls a.decls).get?

theorem Signature.sortOf?_versioned (sig : Signature) (x : String) {k : Nat}
    (hk : k < 18446744073709551616) : sig.sortOf? (versioned x k) = sig.get? x := by
  rw [sortOf?, unversioned?_versioned, if_pos hk]

def Indexing.Readable (ix : Indexing) : Prop := ∀ x, ix.get x < 18446744073709551616

variable {sig : Signature}

theorem Indexing.Readable.instantiate {ix : Indexing} (hix : ix.Readable) {t : Term}
    {sort : VarSort} (h : t.HasSort sig.get? sort) :
    (ix.instantiate t).HasSort sig.sortOf? sort := by
  apply h.rename
  intro x s hx
  rw [name, sig.sortOf?_versioned x (hix x), hx]

theorem Indexing.get_bump_le (ix : Indexing) (x y : String) : (ix.bump y).get x ≤ ix.get x + 1 := by
  by_cases hx : x = y
  · exact Nat.le_of_eq (hx ▸ ix.get_bump_self x)
  · rw [get_bump_of_ne ix hx]
    exact Nat.le_succ _

theorem Indexing.readable_initial : Indexing.initial.Readable := fun _ => Nat.zero_lt_succ _

/-- Statements move every variable on by at most one version each. -/
theorem get_effects (ix : Indexing) (stmts : List Statement) (x : String) :
    ix.get x ≤ (effects ix stmts).2.get x ∧
      (effects ix stmts).2.get x ≤ ix.get x + stmts.length := by
  induction stmts generalizing ix with
  | nil => exact ⟨Nat.le_refl _, Nat.le_refl _⟩
  | cons st rest ih =>
    rw [List.length_cons]
    cases st with
    | assign y _ | havoc y =>
      obtain ⟨hlower, hupper⟩ := ih (ix.bump y)
      have hmono := ix.get_le_get_bump y x
      have hbump := ix.get_bump_le x y
      exact ⟨Nat.le_trans hmono hlower, Nat.le_trans hupper (by omega)⟩
    | assume _ =>
      obtain ⟨hlower, hupper⟩ := ih ix
      exact ⟨hlower, Nat.le_trans hupper (by omega)⟩

theorem hasSort_effects {stmts : List Statement} (hstmts : ∀ st ∈ stmts, st.WellSorted sig.get?)
    {ix : Indexing} (hlast : (effects ix stmts).2.Readable) :
    ∀ t ∈ (effects ix stmts).1, t.HasSort sig.sortOf? .bool := by
  induction stmts generalizing ix with
  | nil => simp [effects]
  | cons st rest ih =>
    obtain ⟨hst, hrest⟩ := List.forall_mem_cons.1 hstmts
    have hix : ix.Readable := fun x => Nat.lt_of_le_of_lt (get_effects ix _ x).1 (hlast x)
    cases st with
    | assign x t =>
      obtain ⟨sort, hx, ht⟩ := hst
      refine List.forall_mem_cons.2 ⟨?_, ih hrest hlast⟩
      have hnext := Nat.lt_of_le_of_lt (get_effects (ix.bump x) rest x).1 (hlast x)
      rw [ix.get_bump_self] at hnext
      refine .bin .equals trivial (.var ?_) (hix.instantiate ht)
      rw [sig.sortOf?_versioned x hnext, hx]
    | assume t => exact List.forall_mem_cons.2 ⟨hix.instantiate hst, ih hrest hlast⟩
    | havoc x => exact ih hrest hlast

/-! ## Clauses -/

structure Clause.WellSorted (sig : Signature) (c : Clause) : Prop where
  body : c.body.HasSort sig.sortOf? .bool
  readable : c.indexing.Readable

theorem Automaton.Path.lt_length {a : Automaton} {l m : Loc} {es : List Nat} (h : a.Path l es m) :
    ∀ i ∈ es, i < a.edges.length := by
  induction h with
  | nil => simp
  | snoc _ hnext ih =>
    obtain ⟨e, he, -⟩ := mem_successors.1 hnext
    refine List.forall_mem_append.2 ⟨ih, List.forall_mem_singleton.2 ?_⟩
    exact (List.getElem?_eq_some_iff.1 he).1

theorem Automaton.length_stmts_le {a : Automaton} {es : List Nat} (hnodup : es.Nodup)
    (hlt : ∀ i ∈ es, i < a.edges.length) :
    (es.flatMap a.stmts).length ≤ (a.edges.flatMap (·.stmts)).length := by
  have hall : (List.range a.edges.length).map a.stmts = a.edges.map (·.stmts) := by
    apply List.ext_getElem
    · simp
    · intro i _ hi
      rw [List.length_map] at hi
      rw [List.getElem_map, List.getElem_map, List.getElem_range,
        stmts_eq (List.getElem?_eq_getElem hi)]
  obtain ⟨es', hperm, hsub⟩ :=
    List.subperm_of_subset hnodup fun i hi => List.mem_range.2 (hlt i hi)
  calc (es.flatMap a.stmts).length
      = (es'.flatMap a.stmts).length := (hperm.flatMap_right a.stmts).length_eq.symm
    _ ≤ ((List.range a.edges.length).flatMap a.stmts).length := (hsub.flatMap a.stmts).length_le
    _ = (a.edges.flatMap (·.stmts)).length := by rw [List.flatMap_def, hall, List.flatMap_def]

theorem Clause.Encodes.readable {a : Automaton} {d : Decomposition} (hwf : a.WellFormed)
    (hd : a.Decomposes d) (hlength : (a.edges.flatMap (·.stmts)).length < 18446744073709551616)
    {seg : Segment} (hseg : seg ∈ d.segments) {c : Clause} (h : c.Encodes a seg) :
    c.indexing.Readable := by
  intro x
  have hle := (get_effects .initial (seg.edges.flatMap a.stmts) x).2
  have hfew := Automaton.length_stmts_le (hd.nodup_edges hwf hseg) (hd.path hwf hseg).lt_length
  have hzero : Indexing.initial.get x = 0 := rfl
  rw [h.indexing_eq]
  omega

theorem Clause.Encodes.wellSorted {a : Automaton} {d : Decomposition} (hwf : a.WellFormed)
    (hd : a.Decomposes d) (hsorted : a.WellSorted)
    (hlength : (a.edges.flatMap (·.stmts)).length < 18446744073709551616) {seg : Segment}
    (hseg : seg ∈ d.segments) {c : Clause} (h : c.Encodes a seg) :
    c.WellSorted (.ofDecls a.decls) := by
  have hreadable := h.readable hwf hd hlength hseg
  refine ⟨?_, hreadable⟩
  rw [h.indexing_eq] at hreadable
  rw [h.body_eq]
  refine Term.hasSort_junction .and (hasSort_effects (fun st hst => ?_) hreadable)
  obtain ⟨e, he, hst⟩ := Automaton.exists_edge_of_stmts hst
  exact hsorted e he st hst

theorem Clause.WellSorted.violation {c : Clause} (h : c.WellSorted sig) {cs : Candidates}
    (hcs : cs.All (·.HasSort sig.get? .bool)) : (c.violation cs).HasSort sig.sortOf? .bool := by
  have hinv : ∀ {ix : Indexing} (l : Loc), ix.Readable →
      (ix.instantiate (cs.dnfOr cs.fallback l).toTerm).HasSort sig.sortOf? .bool := by
    intro ix l hix
    refine hix.instantiate (Term.hasSort_junction .or (List.forall_mem_map.2 fun ts hts => ?_))
    exact Term.hasSort_junction .and (hcs l ts hts)
  rw [Clause.violation, violationWith]
  cases c.shape with
  | fact q =>
    refine Term.hasSort_junction .and ?_
    simp [h.body, (hinv q h.readable).complement]
  | step p q =>
    refine Term.hasSort_junction .and ?_
    simp [hinv p Indexing.readable_initial, h.body, (hinv q h.readable).complement]
  | query p =>
    refine Term.hasSort_junction .and ?_
    simp [hinv p Indexing.readable_initial, h.body]
  | simple => exact h.body

/-! ## Atoms -/

theorem Term.mem_sortUnique {ts : List Term} {t : Term} : t ∈ sortUnique ts ↔ t ∈ ts := by
  have hloop : ∀ (us : List Term) (u : Term) (acc : List Term),
      t ∈ List.eraseRepsBy.loop (· == ·) u us acc ↔ t ∈ u :: us ∨ t ∈ acc := by
    intro us
    induction us with
    | nil =>
      intro u acc
      rw [List.eraseRepsBy.loop, List.mem_reverse, List.mem_cons, List.mem_singleton]
    | cons u' us ih =>
      intro u acc
      rw [List.eraseRepsBy.loop]
      split
      · next heq =>
        -- a repetition is dropped
        rw [ih, eq_of_beq heq, List.mem_cons, List.mem_cons, List.mem_cons, ← or_assoc, or_self]
      · rw [ih, List.mem_cons, List.mem_cons, List.mem_cons, List.mem_cons]
        tauto
  have hsorted : (t ∈ ts.mergeSort fun s t => (cmp s t).isLE) ↔ t ∈ ts := List.mem_mergeSort
  rw [← hsorted, sortUnique, List.eraseReps]
  cases ts.mergeSort fun s t => (cmp s t).isLE with
  | nil => rfl
  | cons u us => exact (hloop us u []).trans (or_iff_left List.not_mem_nil)

theorem ClauseSystem.mem_atomsOfList {u : Term} {ts : List Term} :
    u ∈ atomsOf.atomsOfList ts ↔ ∃ t ∈ ts, u ∈ atomsOf t := by
  induction ts with
  | nil => simp [atomsOf.atomsOfList]
  | cons t ts ih => simp [atomsOf.atomsOfList, ih]

theorem Term.HasSort.atomsOf {σ : String → Option VarSort} {t : Term} {sort : VarSort}
    (h : t.HasSort σ sort) {u : Term} (hu : u ∈ ClauseSystem.atomsOf t) : u.HasSort σ .bool := by
  have hself := h
  induction h with
  | nary op hts ih =>
    obtain ⟨t, ht, hu⟩ := ClauseSystem.mem_atomsOfList.1 hu
    exact ih t ht hu (hts t ht)
  | not ht ih => exact ih hu ht
  | rel =>
    cases List.mem_singleton.1 hu
    exact hself
  | bin op =>
    rw [ClauseSystem.atomsOf.eq_def] at hu
    split at hu
    · next heq => cases heq
    · next heq => cases heq
    · cases hu
    · split at hu
      · cases List.mem_singleton.1 hu
        exact hself
      · cases hu
  | lit | int | var | neg | arith | ite => cases hu

namespace ClauseSystem

variable {s : ClauseSystem}

theorem hasSort_atoms (hs : ∀ c ∈ s.clauses, c.WellSorted s.signature) :
    ∀ t ∈ s.atoms, t.HasSort s.signature.get? .bool := by
  intro t ht
  rw [atoms, List.mem_eraseDups, List.mem_filter, List.mem_map] at ht
  obtain ⟨⟨u, hu, rfl⟩, -⟩ := ht
  obtain ⟨c, hc, hu⟩ := List.mem_flatMap.1 (Term.mem_sortUnique.1 hu)
  apply ((hs c hc).body.atomsOf hu).rename
  intro x sort hx
  rwa [Signature.sortOf?_eq] at hx

theorem wellSorted_clauses {a : Automaton} (hwf : a.WellFormed) (hsorted : a.WellSorted)
    (hlength : (a.edges.flatMap (·.stmts)).length < 18446744073709551616)
    (hs : ofAutomaton a = .ok s) : ∀ c ∈ s.clauses, c.WellSorted s.signature := by
  obtain ⟨d, hd, hencodes⟩ := encodes_of_ofAutomaton hs
  intro c hc
  obtain ⟨seg, hseg, hof⟩ := hencodes.of_clause c hc
  rw [signature, decls, hencodes.automaton_eq]
  exact hof.wellSorted hwf hd hsorted hlength hseg

end ClauseSystem

/-! ## Learned candidates -/

namespace TreeLearner

theorem hasSort_predicatesOn {d : VarDecl} (hd : sig.get? d.name = some d.sort)
    {points : List Datapoint} {t : Term} (ht : t ∈ predicatesOn d points) :
    t.HasSort sig.get? .bool := by
  rw [predicatesOn] at ht
  cases hsort : d.sort with
  | bool =>
    simp only [hsort] at ht
    split at ht
    · cases ht
    · cases List.mem_singleton.1 ht
      exact .var (hsort ▸ hd)
  | int =>
    simp only [hsort, List.mem_append, List.mem_map] at ht
    rw [hsort] at hd
    rcases ht with ⟨c, -, rfl⟩ | ⟨c, -, rfl⟩
    · exact .rel .leq (.var hd) (.int c)
    · exact .bin .equals trivial (.var hd) (.int c)

/-- Candidates of declared variables and well-sorted atoms are well-sorted. -/
theorem all_hasSort_of_learn {l : TreeLearner}
    (hdecls : ∀ d ∈ l.decls, sig.get? d.name = some d.sort)
    (hatoms : ∀ t ∈ l.atoms, t.HasSort sig.get? .bool) {k : Knowledge} {tree : DecisionTree}
    (h : l.learn k = .ok tree) : tree.candidates.All (·.HasSort sig.get? .bool) := by
  refine DecisionTree.all_candidates (fun t ht => ht.complement) (allValues_of_learn ?_ h)
  intro points t ht
  rcases List.mem_append.1 ht with ht | ht
  · split at ht
    · obtain ⟨d, hd, ht⟩ := List.mem_flatMap.1 ht
      exact hasSort_predicatesOn (hdecls d hd) ht
    · cases ht
  · exact hatoms t ht

end TreeLearner

end LoopInvariant
