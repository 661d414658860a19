import LoopInvariant.Proofs.Segment
import Mathlib.Data.List.Induction
/-!
# Segments cover every path once

The segments are the walks from one endpoint to the next that is visited, each listed once. The
search drops a walk when it revisits a location. Nothing is lost by it: such a walk is caught in a
trap, which holds no endpoint. So a walk from the entry to the error location is the concatenation
of one sequence of segments only.
-/

namespace LoopInvariant

namespace Automaton

variable {a : Automaton} {heads : List Loc} {d : Decomposition}

/-! ## Stretches between endpoints -/

/-- The endpoint at a location where segments stop: a loop head or the error location. -/
inductive Stops (a : Automaton) (heads : List Loc) : Loc → Endpoint → Prop where
  | error : Stops a heads a.error .error
  | head {l : Loc} (hl : l ∈ heads) : Stops a heads l (.head l)

/-- A walk that visits no endpoint after its start. -/
inductive Clear (a : Automaton) (heads : List Loc) (l : Loc) : List Nat → Loc → Prop where
  | nil : Clear a heads l [] l
  | snoc {es : List Nat} {m k : Loc} {i : Nat} (hclear : Clear a heads l es m)
      (hnext : (i, k) ∈ a.successors m) (hnone : ∀ p, ¬a.Stops heads k p) :
      Clear a heads l (es ++ [i]) k

/-- A nonempty walk that ends at the first endpoint it visits after its start. -/
inductive Stretch (a : Automaton) (heads : List Loc) (l : Loc) : List Nat → Endpoint → Prop where
  | intro {es : List Nat} {m k : Loc} {i : Nat} {p : Endpoint} (hclear : a.Clear heads l es m)
      (hnext : (i, k) ∈ a.successors m) (hstop : a.Stops heads k p) :
      Stretch a heads l (es ++ [i]) p

theorem Stops.loc_eq {l : Loc} {p : Endpoint} (h : a.Stops heads l p) : p.loc a = l := by
  cases h <;> rfl

theorem stops_iff (herror : a.error ∉ heads) {l : Loc} {p : Endpoint} :
    a.Stops heads l p ↔ a.endpointAt heads l = some p := by
  constructor
  · intro h
    cases h with
    | error => simp [endpointAt, herror]
    | head hl => simp [endpointAt, hl]
  · intro h
    obtain ⟨hloc, rfl | ⟨rfl, hl⟩⟩ := endpointAt_eq_some h
    · exact hloc ▸ .error
    · exact .head hl

theorem not_stops_iff (herror : a.error ∉ heads) {l : Loc} :
    (∀ p, ¬a.Stops heads l p) ↔ a.endpointAt heads l = none := by
  simp only [stops_iff herror, Option.eq_none_iff_forall_ne_some, ne_eq]

/-! ## Walks are determined by their edges -/

theorem Path.nil_inv {l m : Loc} (h : a.Path l [] m) : m = l := by
  generalize hes : ([] : List Nat) = es at h
  cases h with
  | nil => rfl
  | snoc => simp at hes

theorem Path.snoc_inv {l k : Loc} {es : List Nat} {i : Nat} (h : a.Path l (es ++ [i]) k) :
    ∃ m, a.Path l es m ∧ (i, k) ∈ a.successors m := by
  generalize hes : es ++ [i] = es' at h
  cases h with
  | nil => simp at hes
  | snoc hpath hnext =>
    obtain ⟨rfl, hi⟩ := List.append_inj' hes rfl
    cases hi
    exact ⟨_, hpath, hnext⟩

theorem Path.end_unique {l m m' : Loc} {es : List Nat} (h : a.Path l es m) (h' : a.Path l es m') :
    m = m' := by
  cases h with
  | nil => exact h'.nil_inv.symm
  | snoc _ hnext =>
    obtain ⟨k, -, hnext'⟩ := h'.snoc_inv
    obtain ⟨e, he, -, rfl⟩ := mem_successors.1 hnext
    obtain ⟨e', he', -, rfl⟩ := mem_successors.1 hnext'
    rw [Option.some.inj (he.symm.trans he')]

theorem Clear.path {l m : Loc} {es : List Nat} (h : a.Clear heads l es m) : a.Path l es m := by
  induction h with
  | nil => exact .nil
  | snoc _ hnext _ ih => exact .snoc ih hnext

theorem Clear.not_stops {l m k : Loc} {es es' : List Nat} {p : Endpoint} (h : a.Clear heads l es m)
    (hpart : es' <+: es) (hne : es' ≠ []) (hpath : a.Path l es' k) : ¬a.Stops heads k p := by
  induction h generalizing es' with
  | nil => exact absurd (List.prefix_nil.1 hpart) hne
  | snoc hclear hnext hnone ih =>
    rcases List.prefix_concat_iff.1 hpart with rfl | hpart
    · rw [hpath.end_unique (.snoc hclear.path hnext)]
      exact hnone p
    · exact ih hpart hne hpath

theorem Stretch.path {l : Loc} {es : List Nat} {p : Endpoint} (h : a.Stretch heads l es p) :
    a.Path l es (p.loc a) := by
  cases h with
  | intro hclear hnext hstop =>
    rw [hstop.loc_eq]
    exact .snoc hclear.path hnext

theorem Stretch.ne_nil {l : Loc} {es : List Nat} {p : Endpoint} (h : a.Stretch heads l es p) :
    es ≠ [] := by
  cases h
  simp

theorem Stretch.stops {l : Loc} {es : List Nat} {p : Endpoint} (h : a.Stretch heads l es p) :
    a.Stops heads (p.loc a) p := by
  cases h with
  | intro _ _ hstop => rwa [hstop.loc_eq]

/-- No stretch is a proper part of another from the same location. -/
theorem Stretch.eq_of_part {l : Loc} {es es' : List Nat} {p q : Endpoint}
    (h : a.Stretch heads l es p) (h' : a.Stretch heads l es' q) (hpart : es <+: es') :
    es = es' := by
  cases h' with
  | intro hclear hnext hstop =>
    rcases List.prefix_concat_iff.1 hpart with heq | hpart
    · exact heq
    · exact absurd h.stops (hclear.not_stops hpart h.ne_nil h.path)

theorem Stretch.stop_unique (herror : a.error ∉ heads) {l : Loc} {es : List Nat} {p q : Endpoint}
    (h : a.Stretch heads l es p) (h' : a.Stretch heads l es q) : p = q := by
  have hp := (stops_iff herror).1 h.stops
  rw [h.path.end_unique h'.path, (stops_iff herror).1 h'.stops] at hp
  exact (Option.some.inj hp).symm

/-! ## The search finds every stretch -/

theorem clear_iterate (herror : a.error ∉ heads) {l : Loc} {k : Nat} {w : Walk}
    (h : w ∈ (a.advance heads)^[k] [⟨l, [], [l]⟩]) : a.Clear heads l w.edges w.loc := by
  induction k generalizing w with
  | zero =>
    cases List.mem_singleton.1 h
    exact .nil
  | succ k ih =>
    rw [Function.iterate_succ_apply'] at h
    obtain ⟨h, hkept⟩ := List.mem_filter.1 h
    obtain ⟨w, hw, h⟩ := List.mem_flatMap.1 h
    obtain ⟨i, m, hnext, rfl⟩ := mem_steps.1 h
    rw [Bool.and_eq_true, Option.isNone_iff_eq_none] at hkept
    exact .snoc (ih hw) hnext ((not_stops_iff herror).2 hkept.1)

/-- A clear walk from where segments depart is in flight, unless it is caught in a trap. -/
theorem Clear.inFlight_or_trap (hwf : a.WellFormed) (hd : a.Decomposes d) {p : Endpoint}
    (hdeparts : a.Departs d.loopHeads p) {es : List Nat} {m : Loc}
    (h : a.Clear d.loopHeads (p.loc a) es m) :
    (∃ k, ∃ w ∈ (a.advance d.loopHeads)^[k] [⟨p.loc a, [], [p.loc a]⟩], w.edges = es ∧ w.loc = m) ∨
      ∃ set, m ∈ set ∧ a.Trap d.loopHeads set := by
  induction h with
  | nil => exact .inl ⟨0, _, List.mem_singleton.2 rfl, rfl, rfl⟩
  | snoc _ hnext hnone ih =>
    rcases ih with ⟨k, w, hw, rfl, rfl⟩ | ⟨set, hmem, htrap⟩
    · have hnone := (not_stops_iff hd.error_not_head).1 hnone
      refine (hd.step_or_trap hwf hdeparts hw hnext hnone).imp_left fun hw => ?_
      exact ⟨k + 1, _, hw, rfl, rfl⟩
    · exact .inr ⟨set, htrap.closed _ hmem _ (target_of_successor hnext), htrap⟩

theorem Trap.not_stops {set : List Loc} (h : a.Trap heads set) {l : Loc} (hl : l ∈ set)
    {p : Endpoint} : ¬a.Stops heads l p := by
  intro hstop
  cases hstop with
  | error => exact h.error_not_mem hl
  | head hmem => exact h.head_not_mem _ hmem hl

/-- The segments are the empty one at an entry that is an endpoint, and the stretches from where
segments depart. -/
theorem Decomposes.mem_segments_iff (hwf : a.WellFormed) (hd : a.Decomposes d) {seg : Segment} :
    seg ∈ d.segments ↔
      (seg.start = .entry ∧ seg.edges = [] ∧ a.Stops d.loopHeads a.entry seg.stop) ∨
        a.Departs d.loopHeads seg.start ∧
          a.Stretch d.loopHeads (seg.start.loc a) seg.edges seg.stop := by
  have herror := hd.error_not_head
  constructor
  · intro h
    rcases (hd.mem_segments seg).1 h with ⟨stop, hstop, rfl⟩ | ⟨p, hdeparts, hseg⟩
    · exact .inl ⟨rfl, rfl, (stops_iff herror).2 hstop⟩
    · obtain ⟨k, -, w, hw, w', hw', stop, hstop, rfl⟩ := mem_segmentsFrom.1 hseg
      obtain ⟨i, m, hnext, rfl⟩ := mem_steps.1 hw'
      exact .inr ⟨hdeparts, .intro (clear_iterate herror hw) hnext ((stops_iff herror).2 hstop)⟩
  · obtain ⟨p, stop, es⟩ := seg
    rintro (⟨rfl, rfl, hstop⟩ | ⟨hdeparts, hstretch⟩)
    · exact (hd.mem_segments _).2 (.inl ⟨stop, (stops_iff herror).1 hstop, rfl⟩)
    · cases hstretch with
      | intro hclear hnext hstop =>
        rcases hclear.inFlight_or_trap hwf hd hdeparts with ⟨k, w, hw, rfl, rfl⟩ | ⟨set, hmem, htrap⟩
        · exact hd.segment_of_step hwf hdeparts hw hnext ((stops_iff herror).1 hstop)
        · have hin := htrap.closed _ hmem _ (target_of_successor hnext)
          exact absurd hstop (htrap.not_stops hin)

/-! ## No segment is listed twice -/

theorem nodup_successors (l : Loc) : ((a.successors l).map (·.1)).Nodup := by
  have hsub : ((a.successors l).map (·.1)).Sublist (a.edges.zipIdx.map (·.2)) := by
    rw [successors, List.map_map]
    exact List.filter_sublist.map _
  refine hsub.nodup ?_
  rw [List.zipIdx_map_snd]
  exact List.nodup_range'

theorem distinct_steps {walks : List Walk} (h : walks.Pairwise fun w w' => w.edges ≠ w'.edges) :
    (walks.flatMap (Walk.steps a)).Pairwise fun w w' => w.edges ≠ w'.edges := by
  rw [List.pairwise_flatMap]
  constructor
  · intro w _
    rw [Walk.steps, List.pairwise_map]
    refine (List.pairwise_map.1 (nodup_successors w.loc)).imp fun hne heq => hne ?_
    simpa [Walk.step] using heq
  · refine h.imp fun hne x hx y hy heq => hne ?_
    obtain ⟨i, m, -, rfl⟩ := mem_steps.1 hx
    obtain ⟨j, k, -, rfl⟩ := mem_steps.1 hy
    exact (List.append_inj' heq rfl).1

/-- Segments found later are longer. -/
theorem nodup_segmentsFrom {start : Endpoint} {fuel n : Nat} {walks : List Walk}
    (hwalks : walks.Pairwise fun w w' => w.edges ≠ w'.edges)
    (hlength : ∀ w ∈ walks, w.edges.length = n) :
    (a.segmentsFrom heads start fuel walks).Nodup ∧
      ∀ seg ∈ a.segmentsFrom heads start fuel walks, n < seg.edges.length := by
  induction fuel generalizing n walks with
  | zero => simp [segmentsFrom]
  | succ fuel ih =>
    have hdistinct := distinct_steps (a := a) hwalks
    have hlonger : ∀ w ∈ walks.flatMap (Walk.steps a), w.edges.length = n + 1 := by
      intro w' hw'
      obtain ⟨w, hw, hstep⟩ := List.mem_flatMap.1 hw'
      obtain ⟨i, m, -, rfl⟩ := mem_steps.1 hstep
      simp [Walk.step, hlength w hw]
    rw [segmentsFrom]
    generalize walks.flatMap (Walk.steps a) = longer at hdistinct hlonger
    obtain ⟨hrest, hrestLength⟩ := ih (hdistinct.filter fun w =>
      (a.endpointAt heads w.loc).isNone && !w.revisits) fun w hw =>
        hlonger w (List.mem_filter.1 hw).1
    have hended : ∀ seg ∈ longer.filterMap (fun w => (a.endpointAt heads w.loc).map fun stop =>
        ({ start, stop, edges := w.edges } : Segment)), seg.edges.length = n + 1 := by
      intro seg hseg
      obtain ⟨w, hw, hmap⟩ := List.mem_filterMap.1 hseg
      obtain ⟨stop, -, rfl⟩ := Option.map_eq_some_iff.1 hmap
      exact hlonger w hw
    refine ⟨List.nodup_append'.2 ⟨?_, hrest, ?_⟩, List.forall_mem_append.2 ⟨?_, ?_⟩⟩
    · refine List.Pairwise.filterMap _ (fun w w' hne seg hseg seg' hseg' heq => hne ?_) hdistinct
      obtain ⟨stop, -, rfl⟩ := Option.map_eq_some_iff.1 hseg
      obtain ⟨stop', -, rfl⟩ := Option.map_eq_some_iff.1 hseg'
      exact congrArg Segment.edges heq
    · intro seg hseg hseg'
      have hlt := hrestLength seg hseg'
      rw [hended seg hseg] at hlt
      omega
    · intro seg hseg
      rw [hended seg hseg]
      omega
    · intro seg hseg
      have hlt := hrestLength seg hseg
      omega

theorem nodup_segmentsAt {start : Endpoint} {l : Loc} : (a.segmentsAt heads start l).Nodup :=
  (nodup_segmentsFrom (n := 0) (List.pairwise_singleton _ _)
    (List.forall_mem_singleton.2 rfl)).1

theorem start_of_mem_segmentsAt {start : Endpoint} {l : Loc} {seg : Segment}
    (h : seg ∈ a.segmentsAt heads start l) : seg.start = start := by
  obtain ⟨k, -, w, -, w', -, stop, -, rfl⟩ := mem_segmentsFrom.1 h
  rfl

theorem nodup_departures {initial : List Segment} (hheads : heads.Nodup) (hinitial : initial.Nodup)
    (hentry : ∀ seg ∈ initial, seg.start = .entry) :
    (initial ++ heads.flatMap fun l => a.segmentsAt heads (.head l) l).Nodup := by
  refine List.nodup_append'.2 ⟨hinitial, List.nodup_flatMap.2 ⟨fun l _ => nodup_segmentsAt, ?_⟩, ?_⟩
  · refine hheads.imp fun hne seg hseg hseg' => hne ?_
    have hstart := start_of_mem_segmentsAt hseg
    rw [start_of_mem_segmentsAt hseg'] at hstart
    exact (Endpoint.head.inj hstart).symm
  · intro seg hseg hseg'
    obtain ⟨l, -, hseg'⟩ := List.mem_flatMap.1 hseg'
    have hstart := start_of_mem_segmentsAt hseg'
    rw [hentry seg hseg] at hstart
    cases hstart

theorem nodup_segments (h : a.decompose = .ok d) : d.segments.Nodup := by
  obtain ⟨found, -, h⟩ := bind_eq_ok.1 h
  cases h
  apply nodup_departures (nodup_reachable.filter _)
  · split
    · exact List.nodup_singleton _
    · exact nodup_segmentsAt
  · intro seg hseg
    split at hseg
    · rw [List.mem_singleton.1 hseg]
    · exact start_of_mem_segmentsAt hseg

end Automaton

/-! ## Routes -/

/-- Segments of a decomposition, each starting at the endpoint where the one before stops. -/
inductive Decomposition.Route (d : Decomposition) : Endpoint → List Segment → Endpoint → Prop where
  | nil {p : Endpoint} : Route d p [] p
  | cons {seg : Segment} {segs : List Segment} {q : Endpoint} (hseg : seg ∈ d.segments)
      (hroute : Route d seg.stop segs q) : Route d seg.start (seg :: segs) q

theorem Decomposition.Route.snoc {d : Decomposition} {p : Endpoint} {segs : List Segment}
    {seg : Segment} (h : d.Route p segs seg.start) (hseg : seg ∈ d.segments) :
    d.Route p (segs ++ [seg]) seg.stop := by
  generalize hq : seg.start = q at h
  induction h with
  | nil =>
    subst hq
    exact .cons hseg .nil
  | cons hmem _ ih => exact .cons hmem (ih hq)

namespace Automaton

variable {a : Automaton} {d : Decomposition}

structure FirstVisit (a : Automaton) (es : List Nat) : Prop where
  path : a.Path a.entry es a.error
  first : ∀ es', es' <+: es → a.Path a.entry es' a.error → es' = es

theorem Path.rest_eq_nil {l k m : Loc} {es rest : List Nat} (hexits : a.successors k = [])
    (h : a.Path l es k) (hlonger : a.Path l (es ++ rest) m) : rest = [] := by
  induction rest using List.reverseRecOn generalizing m with
  | nil => rfl
  | append_singleton rest i ih =>
    rw [← List.append_assoc] at hlonger
    obtain ⟨m', hpath, hnext⟩ := hlonger.snoc_inv
    rw [ih hpath, List.append_nil] at hpath
    rw [← h.end_unique hpath, hexits] at hnext
    cases hnext

theorem Path.firstVisit (hexits : a.successors a.error = []) {es : List Nat}
    (h : a.Path a.entry es a.error) : a.FirstVisit es := by
  refine ⟨h, fun es' hpart hvisit => ?_⟩
  obtain ⟨rest, rfl⟩ := hpart
  rw [hvisit.rest_eq_nil hexits h, List.append_nil]

/-- How far a walk from the entry is cut into segments: up to the error location, or up to an
endpoint from which a clear walk goes on. -/
inductive Cut (a : Automaton) (d : Decomposition) (es : List Nat) (m : Loc) : Prop where
  | whole {segs : List Segment} (hroute : d.Route .entry segs .error)
      (hedges : segs.flatMap (·.edges) = es) (hloc : m = a.error)
  | part {segs : List Segment} {p : Endpoint} {rest : List Nat} (hroute : d.Route .entry segs p)
      (hdeparts : a.Departs d.loopHeads p) (hclear : a.Clear d.loopHeads (p.loc a) rest m)
      (hedges : segs.flatMap (·.edges) ++ rest = es)

theorem cut_of_stops {segs : List Segment} {p : Endpoint} {m : Loc} (hroute : d.Route .entry segs p)
    (hstop : a.Stops d.loopHeads m p) : a.Cut d (segs.flatMap (·.edges)) m := by
  cases hstop with
  | error => exact .whole hroute rfl rfl
  | head hl => exact .part hroute (.head hl) .nil (List.append_nil _)

theorem cut_entry (hwf : a.WellFormed) (hd : a.Decomposes d) : a.Cut d [] a.entry := by
  cases hp : a.endpointAt d.loopHeads a.entry with
  | none => exact .part .nil (.entry hp) .nil rfl
  | some stop =>
    have hstop := (stops_iff hd.error_not_head).2 hp
    have hseg : (⟨.entry, stop, []⟩ : Segment) ∈ d.segments :=
      (hd.mem_segments_iff hwf).2 (.inl ⟨rfl, rfl, hstop⟩)
    exact cut_of_stops (.cons hseg .nil) hstop

theorem Cut.step (hwf : a.WellFormed) (hd : a.Decomposes d) {es : List Nat} {m k : Loc} {i : Nat}
    (h : a.Cut d es m) (hne : m ≠ a.error) (hnext : (i, k) ∈ a.successors m) :
    a.Cut d (es ++ [i]) k := by
  cases h with
  | whole _ _ hloc => exact absurd hloc hne
  | @part segs p rest hroute hdeparts hclear hedges =>
    subst hedges
    rw [List.append_assoc]
    cases hp : a.endpointAt d.loopHeads k with
    | none =>
      have hnone := (not_stops_iff hd.error_not_head).2 hp
      exact .part hroute hdeparts (.snoc hclear hnext hnone) rfl
    | some stop =>
      have hstop := (stops_iff hd.error_not_head).2 hp
      have hseg : (⟨p, stop, rest ++ [i]⟩ : Segment) ∈ d.segments :=
        (hd.mem_segments_iff hwf).2 (.inr ⟨hdeparts, .intro hclear hnext hstop⟩)
      have hcut := cut_of_stops (hroute.snoc hseg) hstop
      rwa [List.flatMap_append, List.flatMap_singleton] at hcut

/-- A walk that has not been at the error location before its end is cut into segments. -/
theorem Path.cut (hwf : a.WellFormed) (hd : a.Decomposes d) {es : List Nat} {m : Loc}
    (h : a.Path a.entry es m)
    (hfirst : ∀ es', es' <+: es → a.Path a.entry es' a.error → es' = es) : a.Cut d es m := by
  generalize hentry : a.entry = l at h
  induction h with
  | nil => exact hentry ▸ cut_entry hwf hd
  | @snoc es m k i hpath hnext ih =>
    subst hentry
    have hbefore : ∀ es', es' <+: es → ¬a.Path a.entry es' a.error := by
      intro es' hpart hvisit
      have hlength := hpart.length_le
      rw [hfirst es' (hpart.trans (List.prefix_append _ _)) hvisit, List.length_append,
        List.length_singleton] at hlength
      omega
    have hcut := ih fun es' hpart hvisit => absurd hvisit (hbefore es' hpart)
    exact hcut.step hwf hd (fun hm => hbefore es List.prefix_rfl (hm ▸ hpath)) hnext

theorem Clear.ne_error (hd : a.Decomposes d) {p : Endpoint} (hdeparts : a.Departs d.loopHeads p)
    {es : List Nat} {m : Loc} (h : a.Clear d.loopHeads (p.loc a) es m) : m ≠ a.error := by
  cases h with
  | nil =>
    cases hdeparts with
    | entry hnone => exact (endpointAt_eq_none.1 hnone).2
    | head hl => exact fun heq => hd.error_not_head (heq ▸ hl)
  | snoc _ _ hnone => exact fun heq => hnone .error (heq ▸ .error)

theorem FirstVisit.exists_route (hwf : a.WellFormed) (hd : a.Decomposes d) {es : List Nat}
    (h : a.FirstVisit es) : ∃ segs, d.Route .entry segs .error ∧ segs.flatMap (·.edges) = es := by
  cases h.path.cut hwf hd h.first with
  | whole hroute hedges => exact ⟨_, hroute, hedges⟩
  | part _ hdeparts hclear => exact absurd rfl (hclear.ne_error hd hdeparts)

theorem Stops.not_departs {p : Endpoint} (h : a.Stops d.loopHeads a.entry p) :
    ¬a.Departs d.loopHeads .entry := by
  intro hdeparts
  cases hdeparts with
  | entry hnone =>
    obtain ⟨hhead, hne⟩ := endpointAt_eq_none.1 hnone
    generalize a.entry = l at h hhead hne
    cases h with
    | error => exact hne rfl
    | head hl => exact hhead hl

theorem Decomposes.start_ne_error (hwf : a.WellFormed) (hd : a.Decomposes d) {seg : Segment}
    (h : seg ∈ d.segments) : seg.start ≠ .error := by
  intro hstart
  rcases (hd.mem_segments_iff hwf).1 h with ⟨hentry, -⟩ | ⟨hdeparts, -⟩
  · rw [hentry] at hstart
    cases hstart
  · rw [hstart] at hdeparts
    cases hdeparts

theorem Decomposes.segment_eq (hwf : a.WellFormed) (hd : a.Decomposes d) {p q q' : Endpoint}
    {es es' : List Nat} (h : ⟨p, q, es⟩ ∈ d.segments) (h' : ⟨p, q', es'⟩ ∈ d.segments)
    (hpart : es <+: es' ∨ es' <+: es) : es = es' ∧ q = q' := by
  have herror := hd.error_not_head
  rcases (hd.mem_segments_iff hwf).1 h with ⟨rfl, rfl, hstop⟩ | ⟨hdeparts, hstretch⟩
  · rcases (hd.mem_segments_iff hwf).1 h' with ⟨-, rfl, hstop'⟩ | ⟨hdeparts, -⟩
    · have hsame := (stops_iff herror).1 hstop
      rw [(stops_iff herror).1 hstop'] at hsame
      exact ⟨rfl, (Option.some.inj hsame).symm⟩
    · exact absurd hdeparts hstop.not_departs
  · rcases (hd.mem_segments_iff hwf).1 h' with ⟨rfl, -, hstop'⟩ | ⟨-, hstretch'⟩
    · exact absurd hdeparts hstop'.not_departs
    · have hedges : es = es' := hpart.elim (hstretch.eq_of_part hstretch')
        fun hpart => (hstretch'.eq_of_part hstretch hpart).symm
      subst hedges
      exact ⟨rfl, hstretch.stop_unique herror hstretch'⟩

/-- A walk is cut in one way only: the first segment of two routes is the same, so the rest is. -/
theorem Decomposes.route_unique (hwf : a.WellFormed) (hd : a.Decomposes d) {p : Endpoint}
    {segs segs' : List Segment} (h : d.Route p segs .error) (h' : d.Route p segs' .error)
    (hedges : segs.flatMap (·.edges) = segs'.flatMap (·.edges)) : segs = segs' := by
  generalize hq : Endpoint.error = q at h
  induction h generalizing segs' with
  | nil =>
    subst hq
    generalize hp : Endpoint.error = p at h'
    cases h' with
    | nil => rfl
    | cons hseg => exact absurd hp.symm (hd.start_ne_error hwf hseg)
  | @cons seg segs q hseg hroute ih =>
    subst hq
    obtain ⟨p, stop, es⟩ := seg
    cases h' with
    | nil => exact absurd rfl (hd.start_ne_error hwf hseg)
    | @cons seg' segs' _ hseg' hroute' =>
      obtain ⟨p, stop', es'⟩ := seg'
      rw [List.flatMap_cons, List.flatMap_cons] at hedges
      obtain ⟨rfl, rfl⟩ := hd.segment_eq hwf hseg hseg' (List.prefix_or_prefix_of_prefix
        (List.prefix_append es _) (hedges ▸ List.prefix_append es' _))
      rw [ih hroute' (List.append_cancel_left hedges) rfl]

end Automaton

/-- Every path is covered exactly once. The segments are listed without repetition. They are the
empty one from an entry that is a loop head or the error location, and all nonempty walks that start
at a loop head, or at an entry that is neither, and end at the first loop head or error location
they visit. So every walk from the entry to its first visit of the error location is the
concatenation of exactly one sequence of segments. -/
theorem segments_cover_paths_once {description : Description} {a : Automaton} {d : Decomposition}
    (ha : Automaton.ofDescription description = .ok a) (hd : a.decompose = .ok d) :
    d.segments.Nodup ∧
      (∀ seg, seg ∈ d.segments ↔
        (seg.start = .entry ∧ seg.edges = [] ∧ a.Stops d.loopHeads a.entry seg.stop) ∨
          a.Departs d.loopHeads seg.start ∧
            a.Stretch d.loopHeads (seg.start.loc a) seg.edges seg.stop) ∧
      ∀ es, a.FirstVisit es →
        ∃! segs, d.Route .entry segs .error ∧ segs.flatMap (·.edges) = es := by
  have hwf := Automaton.wellFormed_of_ofDescription ha
  have hdecomposes := Automaton.decomposes hd
  refine ⟨Automaton.nodup_segments hd, fun seg => hdecomposes.mem_segments_iff hwf, fun es h => ?_⟩
  obtain ⟨segs, hroute, hedges⟩ := h.exists_route hwf hdecomposes
  refine ⟨segs, ⟨hroute, hedges⟩, fun segs' hsegs' => ?_⟩
  exact hdecomposes.route_unique hwf hsegs'.1 hroute (hsegs'.2.trans hedges.symm)

def trappingLoop : Automaton where
  decls := []
  locations := ["start", "head", "body", "sink", "pit", "bad"]
  entry := 0
  error := 5
  edges := [⟨0, 1, []⟩, ⟨1, 2, []⟩, ⟨2, 1, []⟩, ⟨2, 1, []⟩, ⟨1, 5, []⟩, ⟨0, 3, []⟩, ⟨3, 4, []⟩,
    ⟨4, 3, []⟩]

/-- Two rounds through the loop, one each way. -/
theorem trappingLoop_cover :
    ∃ d, trappingLoop.decompose = .ok d ∧ d.loopHeads = [1] ∧ d.segments.Nodup ∧
      ∃! segs, d.Route .entry segs .error ∧ segs.flatMap (·.edges) = [0, 1, 2, 1, 3, 4] := by
  have ha : Automaton.ofDescription trappingLoop.describe = .ok trappingLoop := rfl
  have hpath : trappingLoop.Path 0 [0, 1, 2, 1, 3, 4] 5 :=
    .snoc (.snoc (.snoc (.snoc (.snoc (.snoc (m := 0) .nil (by decide)) (m := 1) (by decide))
      (m := 2) (by decide)) (m := 1) (by decide)) (m := 2) (by decide)) (m := 1) (by decide)
  refine ⟨_, rfl, by decide, ?_⟩
  obtain ⟨hnodup, -, hcover⟩ := segments_cover_paths_once (d := _) ha rfl
  exact ⟨hnodup, hcover _ (hpath.firstVisit (by decide))⟩

end LoopInvariant
