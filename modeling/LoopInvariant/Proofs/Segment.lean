import LoopInvariant.Proofs.Execution
import LoopInvariant.Proofs.LoopHead
import Mathlib.Logic.Function.Iterate
/-!
# Executions cut into segments

An execution to the error location is a sequence of segments, each executed from the endpoint where
the one before stopped. A walk is dropped only when it closes a cycle between endpoints, and from
such a cycle the error location cannot be reached.
-/

namespace LoopInvariant

def Endpoint.loc (a : Automaton) : Endpoint → Loc
  | .entry => a.entry
  | .error => a.error
  | .head l => l

theorem Endpoint.head?_eq_some {p : Endpoint} {l : Loc} : p.head? = some l ↔ p = .head l := by
  cases p <;> simp [head?]

namespace Automaton

variable {a : Automaton} {heads : List Loc}

theorem mem_successors {l m : Loc} {i : Nat} :
    (i, m) ∈ a.successors l ↔ ∃ e, a.edges[i]? = some e ∧ e.source = l ∧ e.target = m := by
  simp only [successors, List.mem_map, List.mem_filter, decide_eq_true_eq, Prod.exists,
    Prod.mk.injEq, List.mk_mem_zipIdx_iff_getElem?]
  constructor
  · rintro ⟨e, j, ⟨hget, hsource⟩, rfl, htarget⟩
    exact ⟨e, hget, hsource, htarget⟩
  · rintro ⟨e, hget, hsource, htarget⟩
    exact ⟨e, i, ⟨hget, hsource⟩, rfl, htarget⟩

theorem stmts_eq {i : Nat} {e : Edge} (h : a.edges[i]? = some e) : a.stmts i = e.stmts := by
  rw [stmts, h]
  rfl

theorem exists_edge_of_stmts {es : List Nat} {st : Statement} (h : st ∈ es.flatMap a.stmts) :
    ∃ e ∈ a.edges, st ∈ e.stmts := by
  obtain ⟨i, -, hst⟩ := List.mem_flatMap.1 h
  cases he : a.edges[i]? with
  | none => simp [stmts, he] at hst
  | some e =>
    rw [stmts_eq he] at hst
    exact ⟨e, List.mem_of_getElem? he, hst⟩

theorem endpointAt_eq_some {l : Loc} {p : Endpoint} (h : a.endpointAt heads l = some p) :
    p.loc a = l ∧ (p = .error ∨ p = .head l ∧ l ∈ heads) := by
  rw [endpointAt] at h
  split at h
  · next hmem =>
    cases h
    exact ⟨rfl, .inr ⟨rfl, hmem⟩⟩
  · split at h
    · next heq =>
      cases h
      exact ⟨heq.symm, .inl rfl⟩
    · cases h

theorem endpointAt_eq_none {l : Loc} :
    a.endpointAt heads l = none ↔ l ∉ heads ∧ l ≠ a.error := by
  rw [endpointAt]
  by_cases hmem : l ∈ heads
  · simp [hmem]
  · by_cases heq : l = a.error
    · simp [heq, heq ▸ hmem]
    · simp [hmem, heq]

/-! ## Paths -/

/-- The numbers of the edges of a path between two locations. -/
inductive Path (a : Automaton) (l : Loc) : List Nat → Loc → Prop where
  | nil : Path a l [] l
  | snoc {es : List Nat} {m k : Loc} {i : Nat} (hpath : Path a l es m)
      (hnext : (i, k) ∈ a.successors m) : Path a l (es ++ [i]) k

theorem flatMap_stmts_snoc (es : List Nat) (i : Nat) :
    (es ++ [i]).flatMap a.stmts = es.flatMap a.stmts ++ a.stmts i := by
  rw [List.flatMap_append, List.flatMap_singleton]

theorem Path.run {l m : Loc} {es : List Nat} (hpath : a.Path l es m) {s₀ s s' : State}
    {trace trace' : List State} (hrun : a.Run s₀ trace l s)
    (h : Executes (es.flatMap a.stmts) s trace' s') : a.Run s₀ (trace ++ trace') m s' := by
  induction hpath generalizing trace' s' with
  | nil =>
    cases h
    rwa [List.append_nil]
  | snoc _ hnext ih =>
    rw [flatMap_stmts_snoc] at h
    obtain ⟨u, trace₁, trace₂, rfl, hbefore, hlast⟩ := h.of_append
    obtain ⟨e, hget, hsource, rfl⟩ := mem_successors.1 hnext
    rw [stmts_eq hget] at hlast
    rw [← List.append_assoc]
    exact .edge (ih hbefore) (List.mem_of_getElem? hget) hsource hlast

/-! ## Walks -/

def advance (a : Automaton) (heads : List Loc) (walks : List Walk) : List Walk :=
  (walks.flatMap (Walk.steps a)).filter fun w => (a.endpointAt heads w.loc).isNone && !w.revisits

/-- The segments are the walks that end, one edge after they were in flight. -/
theorem mem_segmentsFrom {start : Endpoint} {seg : Segment} {fuel : Nat} {walks : List Walk} :
    seg ∈ a.segmentsFrom heads start fuel walks ↔
      ∃ k < fuel, ∃ w ∈ (a.advance heads)^[k] walks, ∃ w' ∈ w.steps a, ∃ stop,
        a.endpointAt heads w'.loc = some stop ∧ seg = ⟨start, stop, w'.edges⟩ := by
  induction fuel generalizing walks with
  | zero => simp [segmentsFrom]
  | succ fuel ih =>
    have hended : seg ∈ (walks.flatMap (Walk.steps a)).filterMap (fun w =>
        (a.endpointAt heads w.loc).map fun stop => { start, stop, edges := w.edges }) ↔
        ∃ w ∈ walks, ∃ w' ∈ w.steps a, ∃ stop,
          a.endpointAt heads w'.loc = some stop ∧ seg = ⟨start, stop, w'.edges⟩ := by
      simp only [List.mem_filterMap, List.mem_flatMap, Option.map_eq_some_iff]
      constructor
      · rintro ⟨w', ⟨w, hw, hw'⟩, stop, hstop, rfl⟩
        exact ⟨w, hw, w', hw', stop, hstop, rfl⟩
      · rintro ⟨w, hw, w', hw', stop, hstop, rfl⟩
        exact ⟨w', ⟨w, hw, hw'⟩, stop, hstop, rfl⟩
    rw [segmentsFrom, List.mem_append, hended, ih]
    constructor
    · rintro (h | ⟨k, hk, h⟩)
      · exact ⟨0, Nat.succ_pos _, h⟩
      · exact ⟨k + 1, Nat.succ_lt_succ hk, h⟩
    · rintro ⟨k, hk, h⟩
      cases k with
      | zero => exact .inl h
      | succ k => exact .inr ⟨k, Nat.lt_of_succ_lt_succ hk, h⟩

/-- A walk in flight: it is a path without repetition, and every free location on it leads on to
its end between free locations. -/
structure Walk.InFlight (a : Automaton) (heads : List Loc) (l : Loc) (k : Nat) (w : Walk) :
    Prop where
  path : a.Path l w.edges w.loc
  loc_mem : w.loc ∈ w.visited
  length : w.visited.length = k + 1
  nodup : w.visited.Nodup
  reachable : ∀ m ∈ w.visited, m ∈ a.reachable
  inner : ∀ m ∈ w.visited, a.Free a.reachable heads m →
    Relation.ReflTransGen (a.Inner a.reachable heads) m w.loc

/-- An edge from the end of a walk stays between free locations if it leads to one and some free
location was visited. -/
theorem Walk.InFlight.inner_step {l m : Loc} {k : Nat} {w : Walk} (h : w.InFlight a heads l k)
    {v : Loc} (hv : v ∈ w.visited) (hfree : a.Free a.reachable heads v)
    (hm : m ∈ a.targets w.loc) (hfree' : a.Free a.reachable heads m) :
    Relation.TransGen (a.Inner a.reachable heads) v m := by
  have hinner := h.inner v hv hfree
  refine .tail' hinner ⟨hm, ?_, hfree'⟩
  rcases hinner.cases_tail with heq | ⟨u, -, hlast⟩
  · rw [heq]
    exact hfree
  · exact hlast.target

theorem mem_steps {w w' : Walk} :
    w' ∈ w.steps a ↔ ∃ i m, (i, m) ∈ a.successors w.loc ∧ w' = w.step i m := by
  simp only [Walk.steps, List.mem_map, Prod.exists]
  exact ⟨fun ⟨i, m, h, heq⟩ => ⟨i, m, h, heq.symm⟩, fun ⟨i, m, h, heq⟩ => ⟨i, m, h, heq.symm⟩⟩

theorem target_of_successor {l m : Loc} {i : Nat} (h : (i, m) ∈ a.successors l) :
    m ∈ a.targets l :=
  List.mem_map.2 ⟨(i, m), h, rfl⟩

theorem inFlight_iterate (hwf : a.WellFormed) {l : Loc} (hl : l ∈ a.reachable) {k : Nat} {w : Walk}
    (h : w ∈ (a.advance heads)^[k] [⟨l, [], [l]⟩]) : w.InFlight a heads l k := by
  induction k generalizing w with
  | zero =>
    cases List.mem_singleton.1 h
    refine ⟨.nil, List.mem_singleton.2 rfl, rfl, List.nodup_singleton l,
      List.forall_mem_singleton.2 hl, List.forall_mem_singleton.2 fun _ => .refl⟩
  | succ k ih =>
    rw [Function.iterate_succ_apply'] at h
    obtain ⟨h, hkept⟩ := List.mem_filter.1 h
    obtain ⟨w, hw, h⟩ := List.mem_flatMap.1 h
    obtain ⟨i, m, hnext, rfl⟩ := mem_steps.1 h
    have hw := ih hw
    have hm := target_of_successor hnext
    simp only [Walk.step, Walk.revisits, List.drop_one, List.tail_cons, Bool.and_eq_true,
      Option.isNone_iff_eq_none, Bool.not_eq_true'] at hkept
    obtain ⟨hnone, hnew⟩ := hkept
    have hnew : m ∉ w.visited := by simpa using hnew
    have hreachable : m ∈ a.reachable :=
      (reachable_closed hwf).2 _ (hw.reachable _ hw.loc_mem) m hm
    obtain ⟨hhead, hne⟩ := endpointAt_eq_none.1 hnone
    refine ⟨.snoc hw.path hnext, List.mem_cons_self, congrArg (· + 1) hw.length,
      List.nodup_cons.2 ⟨hnew, hw.nodup⟩, List.forall_mem_cons.2 ⟨hreachable, hw.reachable⟩, ?_⟩
    refine List.forall_mem_cons.2 ⟨fun _ => .refl, fun v hv hfree => ?_⟩
    exact (hw.inner_step hv hfree hm ⟨hreachable, hne, hhead⟩).to_reflTransGen

theorem sources_iterate {l : Loc} {k : Nat} {w : Walk}
    (h : w ∈ (a.advance heads)^[k] [⟨l, [], [l]⟩]) :
    ∃ passed, w.visited = w.loc :: passed ∧
      ∀ i ∈ w.edges, ∃ e, a.edges[i]? = some e ∧ e.source ∈ passed := by
  induction k generalizing w with
  | zero =>
    cases List.mem_singleton.1 h
    exact ⟨[], rfl, by simp⟩
  | succ k ih =>
    rw [Function.iterate_succ_apply'] at h
    obtain ⟨w, hw, h⟩ := List.mem_flatMap.1 (List.mem_filter.1 h).1
    obtain ⟨i, m, hnext, rfl⟩ := mem_steps.1 h
    obtain ⟨passed, hvisited, hsources⟩ := ih hw
    obtain ⟨e, he, hsource, -⟩ := mem_successors.1 hnext
    refine ⟨w.visited, rfl, List.forall_mem_append.2 ⟨fun j hj => ?_, ?_⟩⟩
    · obtain ⟨e', he', hmem⟩ := hsources j hj
      exact ⟨e', he', hvisited ▸ List.mem_cons_of_mem _ hmem⟩
    · refine List.forall_mem_singleton.2 ⟨e, he, ?_⟩
      rw [hsource, hvisited]
      exact List.mem_cons_self

theorem not_mem_edges_of_successor (hwf : a.WellFormed) {l : Loc} (hl : l ∈ a.reachable) {k : Nat}
    {w : Walk} (h : w ∈ (a.advance heads)^[k] [⟨l, [], [l]⟩]) {i : Nat} {m : Loc}
    (hnext : (i, m) ∈ a.successors w.loc) : i ∉ w.edges := by
  intro hmem
  obtain ⟨passed, hvisited, hsources⟩ := sources_iterate h
  obtain ⟨e, he, hpassed⟩ := hsources i hmem
  obtain ⟨e', he', hsource, -⟩ := mem_successors.1 hnext
  cases he.symm.trans he'
  have hnodup := (inFlight_iterate hwf hl h).nodup
  rw [hvisited, List.nodup_cons] at hnodup
  exact hnodup.1 (hsource ▸ hpassed)

theorem nodup_edges_iterate (hwf : a.WellFormed) {l : Loc} (hl : l ∈ a.reachable) {k : Nat}
    {w : Walk} (h : w ∈ (a.advance heads)^[k] [⟨l, [], [l]⟩]) : w.edges.Nodup := by
  induction k generalizing w with
  | zero =>
    cases List.mem_singleton.1 h
    exact List.nodup_nil
  | succ k ih =>
    rw [Function.iterate_succ_apply'] at h
    obtain ⟨w, hw, h⟩ := List.mem_flatMap.1 (List.mem_filter.1 h).1
    obtain ⟨i, m, hnext, rfl⟩ := mem_steps.1 h
    rw [Walk.step, ← List.concat_eq_append]
    exact (ih hw).concat (not_mem_edges_of_successor hwf hl hw hnext)

/-- The fuel of the segment search covers every walk in flight. -/
theorem Walk.InFlight.lt_fuel (hwf : a.WellFormed) {l : Loc} {k : Nat} {w : Walk}
    (h : w.InFlight a heads l k) : k < a.locations.length + 1 := by
  have hlength := length_le_locations h.nodup fun m hm =>
    lt_of_mem_reachable hwf (h.reachable m hm)
  rw [h.length] at hlength
  omega

/-! ## Decompositions -/

/-- The start of segments at an endpoint: a loop head, or the entry where it is no endpoint. -/
inductive Departs (a : Automaton) (heads : List Loc) : Endpoint → Prop where
  | entry (hnone : a.endpointAt heads a.entry = none) : Departs a heads .entry
  | head {l : Loc} (hl : l ∈ heads) : Departs a heads (.head l)

/-- What decomposing an automaton gives. -/
structure Decomposes (a : Automaton) (d : Decomposition) : Prop where
  reachable : ∀ l ∈ d.loopHeads, l ∈ a.reachable
  error_not_head : a.error ∉ d.loopHeads
  trap : ∀ l, Relation.TransGen (a.Inner a.reachable d.loopHeads) l l →
    ∃ set, l ∈ set ∧ a.Trap d.loopHeads set
  mem_segments : ∀ seg, seg ∈ d.segments ↔
    (∃ stop, a.endpointAt d.loopHeads a.entry = some stop ∧ seg = ⟨.entry, stop, []⟩) ∨
      ∃ p, a.Departs d.loopHeads p ∧ seg ∈ a.segmentsAt d.loopHeads p (p.loc a)

theorem decomposes {d : Decomposition} (h : a.decompose = .ok d) : a.Decomposes d := by
  obtain ⟨found, hfound, h⟩ := bind_eq_ok.1 h
  cases h
  have hheads : ∀ l ∈ a.reachable, l ∈ a.reachable.filter (· ∈ found) ↔ l ∈ found := by
    intro l hl
    simp [hl]
  refine ⟨fun l hl => (List.mem_filter.1 hl).1, ?_, ?_, ?_⟩
  · intro hmem
    exact error_not_mem_headsWithin hfound (by simpa using (List.mem_filter.1 hmem).2)
  · intro l hcycle
    have hcycle' : Relation.TransGen (a.Inner a.reachable found) l l := by
      refine Relation.TransGen.mono ?_ _ _ hcycle
      rintro u v ⟨htarget, ⟨hu, hue, huh⟩, hv, hve, hvh⟩
      rw [hheads u hu] at huh
      rw [hheads v hv] at hvh
      exact ⟨htarget, ⟨hu, hue, huh⟩, hv, hve, hvh⟩
    obtain ⟨set, hset, hmem, htrap⟩ := exists_trap hfound (Nat.lt_succ_self _) hcycle'
    refine ⟨set, hmem, htrap.closed, htrap.error_not_mem, fun k hk => htrap.head_not_mem k ?_⟩
    exact (hheads k (List.mem_filter.1 hk).1).1 hk
  · intro seg
    simp only [List.mem_append, List.mem_flatMap]
    generalize a.reachable.filter (· ∈ found) = heads
    constructor
    · rintro (hseg | ⟨l, hl, hseg⟩)
      · split at hseg
        · next stop hstop => exact .inl ⟨stop, hstop, List.mem_singleton.1 hseg⟩
        · next hnone => exact .inr ⟨.entry, .entry hnone, hseg⟩
      · exact .inr ⟨.head l, .head hl, hseg⟩
    · rintro (⟨stop, hstop, rfl⟩ | ⟨p, hdeparts, hseg⟩)
      · rw [hstop]
        exact .inl (List.mem_singleton.2 rfl)
      · cases hdeparts with
        | entry hnone =>
          rw [hnone]
          exact .inl hseg
        | head hl => exact .inr ⟨_, hl, hseg⟩

variable {d : Decomposition}

theorem Departs.loc_mem (hwf : a.WellFormed) (hd : a.Decomposes d) {p : Endpoint}
    (h : a.Departs d.loopHeads p) : p.loc a ∈ a.reachable := by
  cases h with
  | entry => exact (reachable_closed hwf).1
  | head hl => exact hd.reachable _ hl

theorem Decomposes.path (hwf : a.WellFormed) (hd : a.Decomposes d) {seg : Segment}
    (h : seg ∈ d.segments) : a.Path (seg.start.loc a) seg.edges (seg.stop.loc a) := by
  rcases (hd.mem_segments seg).1 h with ⟨stop, hstop, rfl⟩ | ⟨p, hdeparts, hseg⟩
  · rw [(endpointAt_eq_some hstop).1]
    exact .nil
  · obtain ⟨k, -, w, hw, w', hw', stop, hstop, rfl⟩ := mem_segmentsFrom.1 hseg
    obtain ⟨i, m, hnext, rfl⟩ := mem_steps.1 hw'
    have hpath := (inFlight_iterate hwf (hdeparts.loc_mem hwf hd) hw).path
    rw [(endpointAt_eq_some hstop).1]
    exact .snoc hpath hnext

theorem Decomposes.nodup_edges (hwf : a.WellFormed) (hd : a.Decomposes d) {seg : Segment}
    (h : seg ∈ d.segments) : seg.edges.Nodup := by
  rcases (hd.mem_segments seg).1 h with ⟨stop, -, rfl⟩ | ⟨p, hdeparts, hseg⟩
  · exact List.nodup_nil
  · obtain ⟨k, -, w, hw, w', hw', stop, -, rfl⟩ := mem_segmentsFrom.1 hseg
    obtain ⟨i, m, hnext, rfl⟩ := mem_steps.1 hw'
    have hloc := hdeparts.loc_mem hwf hd
    rw [Walk.step, ← List.concat_eq_append]
    exact (nodup_edges_iterate hwf hloc hw).concat (not_mem_edges_of_successor hwf hloc hw hnext)

theorem Decomposes.segment_of_step (hwf : a.WellFormed) (hd : a.Decomposes d) {p stop : Endpoint}
    (hdeparts : a.Departs d.loopHeads p) {k : Nat} {w : Walk}
    (hw : w ∈ (a.advance d.loopHeads)^[k] [⟨p.loc a, [], [p.loc a]⟩]) {i : Nat} {m : Loc}
    (hnext : (i, m) ∈ a.successors w.loc) (hstop : a.endpointAt d.loopHeads m = some stop) :
    ⟨p, stop, w.edges ++ [i]⟩ ∈ d.segments := by
  have hflight := inFlight_iterate hwf (hdeparts.loc_mem hwf hd) hw
  exact (hd.mem_segments _).2 (.inr ⟨p, hdeparts, mem_segmentsFrom.2
    ⟨k, hflight.lt_fuel hwf, w, hw, w.step i m, mem_steps.2 ⟨i, m, hnext, rfl⟩, stop, hstop, rfl⟩⟩)

/-- A walk in flight that takes an edge to no endpoint stays in flight, or it closes a cycle of free
locations and is caught in a trap. -/
theorem Decomposes.step_or_trap (hwf : a.WellFormed) (hd : a.Decomposes d) {p : Endpoint}
    (hdeparts : a.Departs d.loopHeads p) {k : Nat} {w : Walk}
    (hw : w ∈ (a.advance d.loopHeads)^[k] [⟨p.loc a, [], [p.loc a]⟩]) {i : Nat} {m : Loc}
    (hnext : (i, m) ∈ a.successors w.loc) (hnone : a.endpointAt d.loopHeads m = none) :
    w.step i m ∈ (a.advance d.loopHeads)^[k + 1] [⟨p.loc a, [], [p.loc a]⟩] ∨
      ∃ set, m ∈ set ∧ a.Trap d.loopHeads set := by
  have hflight := inFlight_iterate hwf (hdeparts.loc_mem hwf hd) hw
  obtain ⟨hhead, hne⟩ := endpointAt_eq_none.1 hnone
  by_cases hvisited : m ∈ w.visited
  · have hfree : a.Free a.reachable d.loopHeads m := ⟨hflight.reachable _ hvisited, hne, hhead⟩
    exact .inr (hd.trap _ (hflight.inner_step hvisited hfree (target_of_successor hnext) hfree))
  · rw [Function.iterate_succ_apply']
    refine .inl (List.mem_filter.2
      ⟨List.mem_flatMap.2 ⟨w, hw, mem_steps.2 ⟨i, m, hnext, rfl⟩⟩, ?_⟩)
    simp [Walk.step, Walk.revisits, hnone, hvisited]

/-! ## Arriving at endpoints -/

/-- An endpoint is reached with a state by executing segments one after another, through states
with a given property only. -/
inductive Arrives (a : Automaton) (d : Decomposition) (ok : State → Prop) :
    Endpoint → State → Prop where
  | start {s : State} (hs : ok s) : Arrives a d ok .entry s
  | segment {s s' : State} {seg : Segment} {trace : List State} (h : Arrives a d ok seg.start s)
      (hseg : seg ∈ d.segments) (hstmts : Executes (seg.edges.flatMap a.stmts) s trace s')
      (hok : ∀ u ∈ trace, ok u) : Arrives a d ok seg.stop s'

/-- What is executed in segments is an execution of the automaton. -/
theorem Arrives.run {ok : State → Prop} (hwf : a.WellFormed) (hd : a.Decomposes d) {p : Endpoint}
    {s : State} (h : a.Arrives d ok p s) :
    ∃ s₀ trace, a.Run s₀ trace (p.loc a) s ∧ ∀ u ∈ s₀ :: trace, ok u := by
  induction h with
  | @start s hs => exact ⟨s, [], .start, List.forall_mem_singleton.2 hs⟩
  | segment _ hseg hstmts hok ih =>
    obtain ⟨s₀, trace, hrun, hstates⟩ := ih
    refine ⟨s₀, _, (hd.path hwf hseg).run hrun hstmts, ?_⟩
    intro u hu
    rw [← List.cons_append, List.mem_append] at hu
    exact hu.elim (hstates u) (hok u)

inductive Underway (a : Automaton) (d : Decomposition) (ok : State → Prop) (l : Loc) (s : State) :
    Prop where
  | intro (p : Endpoint) (s₁ : State) (k : Nat) (w : Walk) (trace : List State)
      (harrives : a.Arrives d ok p s₁) (hdeparts : a.Departs d.loopHeads p)
      (hw : w ∈ (a.advance d.loopHeads)^[k] [⟨p.loc a, [], [p.loc a]⟩]) (hloc : w.loc = l)
      (hstmts : Executes (w.edges.flatMap a.stmts) s₁ trace s) (hok : ∀ u ∈ trace, ok u)

theorem underway_of_arrives {ok : State → Prop} {p : Endpoint} {s : State}
    (h : a.Arrives d ok p s) (hdeparts : a.Departs d.loopHeads p) :
    a.Underway d ok (p.loc a) s :=
  ⟨p, s, 0, ⟨p.loc a, [], [p.loc a]⟩, [], h, hdeparts, List.mem_singleton.2 rfl, rfl, .nil s,
    by simp⟩

theorem arrived {ok : State → Prop} {l : Loc} {p : Endpoint} {s : State}
    (hp : a.endpointAt d.loopHeads l = some p) (h : a.Arrives d ok p s) :
    (∃ s', a.Arrives d ok .error s') ∨ a.Underway d ok l s := by
  rcases (endpointAt_eq_some hp).2 with rfl | ⟨rfl, hl⟩
  · exact .inl ⟨s, h⟩
  · exact .inr (underway_of_arrives h (.head hl))

/-- Where an execution can be: past the error location, in a trap, or underway. -/
def Accounted (a : Automaton) (d : Decomposition) (ok : State → Prop) (l : Loc) (s : State) :
    Prop :=
  (∃ s', a.Arrives d ok .error s') ∨ (∃ set, l ∈ set ∧ a.Trap d.loopHeads set) ∨
    a.Underway d ok l s

theorem accounted_start {ok : State → Prop} (hd : a.Decomposes d) {s : State} (hs : ok s) :
    a.Accounted d ok a.entry s := by
  have hstart : a.Arrives d ok .entry s := .start hs
  cases hp : a.endpointAt d.loopHeads a.entry with
  | some stop =>
    have hseg := (hd.mem_segments _).2 (.inl ⟨stop, hp, rfl⟩)
    have harrives : a.Arrives d ok stop s := .segment hstart hseg (.nil s) (by simp)
    exact (arrived hp harrives).imp_right .inr
  | none => exact .inr (.inr (underway_of_arrives hstart (.entry hp)))

theorem accounted_edge {ok : State → Prop} (hwf : a.WellFormed) (hd : a.Decomposes d) {e : Edge}
    {s s' : State} {trace : List State} (h : a.Accounted d ok e.source s) (he : e ∈ a.edges)
    (hstmts : Executes e.stmts s trace s') (hok : ∀ u ∈ trace, ok u) :
    a.Accounted d ok e.target s' := by
  rcases h with h | ⟨set, hmem, htrap⟩ | ⟨p, s₁, k, w, trace₁, harrives, hdeparts, hw, hloc, hbefore,
    hok₁⟩
  · exact .inl h
  · have htarget : e.target ∈ a.targets e.source := mem_targets.2 ⟨e, he, rfl, rfl⟩
    exact .inr (.inl ⟨set, htrap.closed _ hmem _ htarget, htrap⟩)
  · obtain ⟨i, hi⟩ := List.mem_iff_getElem?.1 he
    have hnext : (i, e.target) ∈ a.successors w.loc := mem_successors.2 ⟨e, hi, hloc.symm, rfl⟩
    have hlonger : Executes ((w.step i e.target).edges.flatMap a.stmts) s₁ (trace₁ ++ trace) s' := by
      rw [Walk.step, flatMap_stmts_snoc, stmts_eq hi]
      exact hbefore.append hstmts
    have hok' : ∀ u ∈ trace₁ ++ trace, ok u := List.forall_mem_append.2 ⟨hok₁, hok⟩
    cases hp : a.endpointAt d.loopHeads e.target with
    | some stop =>
      have hseg := hd.segment_of_step hwf hdeparts hw hnext hp
      exact (arrived hp (.segment harrives hseg hlonger hok')).imp_right .inr
    | none =>
      rcases hd.step_or_trap hwf hdeparts hw hnext hp with hw | htrap
      · exact .inr (.inr ⟨p, s₁, k + 1, _, _, harrives, hdeparts, hw, rfl, hlonger, hok'⟩)
      · exact .inr (.inl htrap)

/-- An execution to the error location is executed in segments. -/
theorem Run.arrives {ok : State → Prop} (hwf : a.WellFormed) (hd : a.Decomposes d) {s₀ s : State}
    {trace : List State} (hrun : a.Run s₀ trace a.error s) (hok : ∀ u ∈ s₀ :: trace, ok u) :
    ∃ s', a.Arrives d ok .error s' := by
  have haccounted : ∀ {trace : List State} {l : Loc} {s : State}, a.Run s₀ trace l s →
      (∀ u ∈ s₀ :: trace, ok u) → a.Accounted d ok l s := by
    intro trace l s hrun hok
    induction hrun with
    | start => exact accounted_start hd (hok s₀ List.mem_cons_self)
    | edge _ he hsource hstmts ih =>
      rw [← List.cons_append, List.forall_mem_append] at hok
      subst hsource
      exact accounted_edge hwf hd (ih hok.1) he hstmts hok.2
  rcases haccounted hrun hok with h | ⟨set, hmem, htrap⟩ | ⟨p, s₁, k, w, -, -, hdeparts, hw, hloc, -⟩
  · exact h
  · exact absurd hmem htrap.error_not_mem
  · -- only the start of a walk can be an endpoint, and the error location starts none
    cases k with
    | zero =>
      cases List.mem_singleton.1 hw
      cases hdeparts with
      | entry hnone => exact absurd hloc (endpointAt_eq_none.1 hnone).2
      | head hl => exact absurd (hloc ▸ hl) hd.error_not_head
    | succ k =>
      rw [Function.iterate_succ_apply'] at hw
      have hkept := (List.mem_filter.1 hw).2
      simp only [Bool.and_eq_true, Option.isNone_iff_eq_none] at hkept
      exact absurd hloc (endpointAt_eq_none.1 hkept.1).2

end Automaton

end LoopInvariant
