import LoopInvariant.Proofs.ClosedPart
import LoopInvariant.Proofs.SegmentCover
/-!
# Edges that leave the error location

No segment goes on from the error location and no loop runs through it. The search from the entry
does not stop there, though: it also finds what can be reached only through the error location. A
loop out there has a head of its own if it can be left, and it may have several exits. And a
location can be found earlier by a way through the error location, so that the loop heads come in
another order. Nothing else depends on the edges that leave the error location.
-/

namespace LoopInvariant

def Segment.renumber (position : Nat → Nat) (seg : Segment) : Segment :=
  { seg with edges := seg.edges.map position }

namespace Decomposition

/-- The segments from the entry and from some of the loop heads, in their order. -/
def restrict (d : Decomposition) (heads : List Loc) : Decomposition where
  loopHeads := heads
  segments := d.segments.filter (·.start = .entry) ++
    heads.flatMap fun l => d.segments.filter (·.start = .head l)

def renumber (position : Nat → Nat) (d : Decomposition) : Decomposition where
  loopHeads := d.loopHeads
  segments := d.segments.map (Segment.renumber position)

end Decomposition

namespace Automaton

variable {a : Automaton} {nodes part component heads heads' : List Loc} {l m : Loc}

/-! ## Segments by their start -/

def entrySegments (a : Automaton) (heads : List Loc) : List Segment :=
  match a.endpointAt heads a.entry with
  | some stop => [{ start := .entry, stop, edges := [] }]
  | none => a.segmentsAt heads .entry a.entry

def assemble (a : Automaton) (heads : List Loc) : Decomposition where
  loopHeads := heads
  segments := a.entrySegments heads ++ heads.flatMap fun l => a.segmentsAt heads (.head l) l

theorem decompose_eq_ok_iff {d : Decomposition} :
    a.decompose = .ok d ↔ ∃ found, a.headsWithin (a.reachable.length + 1) a.reachable = .ok found ∧
      a.assemble (a.reachable.filter (· ∈ found)) = d := by
  rw [decompose, bind_eq_ok]
  constructor
  · rintro ⟨found, hfound, h⟩
    exact ⟨found, hfound, Except.ok.inj h⟩
  · rintro ⟨found, hfound, rfl⟩
    exact ⟨found, hfound, rfl⟩

theorem start_of_mem_entrySegments {seg : Segment} (h : seg ∈ a.entrySegments heads) :
    seg.start = .entry := by
  rw [entrySegments] at h
  split at h
  · rw [List.mem_singleton.1 h]
  · exact start_of_mem_segmentsAt h

theorem filter_start_entry (a : Automaton) (heads : List Loc) :
    (a.assemble heads).segments.filter (·.start = .entry) = a.entrySegments heads := by
  rw [assemble, List.filter_append, List.filter_eq_self.2, List.filter_eq_nil_iff.2,
    List.append_nil]
  · intro seg hseg
    obtain ⟨l, -, hseg⟩ := List.mem_flatMap.1 hseg
    simp [start_of_mem_segmentsAt hseg]
  · intro seg hseg
    simp [start_of_mem_entrySegments hseg]

theorem filter_start_head (hnodup : heads.Nodup) (hl : l ∈ heads) :
    (a.assemble heads).segments.filter (·.start = .head l) =
      a.segmentsAt heads (.head l) l := by
  have hentry : (a.entrySegments heads).filter (·.start = .head l) = [] := by
    refine List.filter_eq_nil_iff.2 fun seg hseg => ?_
    simp [start_of_mem_entrySegments hseg]
  have hself : (a.segmentsAt heads (.head l) l).filter (·.start = .head l) =
      a.segmentsAt heads (.head l) l := by
    refine List.filter_eq_self.2 fun seg hseg => ?_
    simp [start_of_mem_segmentsAt hseg]
  have hothers : ∀ ls : List Loc, l ∉ ls →
      (ls.flatMap fun k => a.segmentsAt heads (.head k) k).filter (·.start = .head l) = [] := by
    intro ls hls
    refine List.filter_eq_nil_iff.2 fun seg hseg => ?_
    obtain ⟨k, hk, hseg⟩ := List.mem_flatMap.1 hseg
    rw [start_of_mem_segmentsAt hseg, decide_eq_true_eq, Endpoint.head.injEq]
    exact fun heq => hls (heq ▸ hk)
  have hlist : ∀ ls : List Loc, ls.Nodup → l ∈ ls →
      (ls.flatMap fun k => a.segmentsAt heads (.head k) k).filter (·.start = .head l) =
        a.segmentsAt heads (.head l) l := by
    intro ls hls hmem
    obtain ⟨before, after, rfl⟩ := List.append_of_mem hmem
    obtain ⟨hbefore, hafter⟩ : l ∉ before ∧ l ∉ after := by
      simpa [not_or] using (List.nodup_middle.1 hls).notMem
    rw [List.flatMap_append, List.flatMap_cons, List.filter_append, List.filter_append,
      hothers before hbefore, hself, hothers after hafter, List.nil_append, List.append_nil]
  rw [assemble, List.filter_append, hentry, List.nil_append, hlist heads hnodup hl]

theorem restrict_assemble (hnodup : heads.Nodup) (h : heads' ⊆ heads) :
    (a.assemble heads).restrict heads' =
      { loopHeads := heads'
        segments := a.entrySegments heads ++
          heads'.flatMap fun l => a.segmentsAt heads (.head l) l } := by
  rw [Decomposition.restrict, filter_start_entry]
  congr 2
  exact List.flatMap_congr fun l hl => filter_start_head hnodup (h hl)

theorem loopHeads_filter {d : Decomposition} (h : a.decompose = .ok d) :
    a.reachable.filter (· ∈ d.loopHeads) = d.loopHeads := by
  obtain ⟨found, -, rfl⟩ := decompose_eq_ok_iff.1 h
  refine List.filter_congr fun l hl => decide_eq_decide.2 ?_
  show l ∈ a.reachable.filter (· ∈ found) ↔ _
  rw [List.mem_filter, decide_eq_true_eq]
  exact and_iff_right hl

theorem restrict_loopHeads {d : Decomposition} (h : a.decompose = .ok d) :
    d.restrict d.loopHeads = d := by
  obtain ⟨found, -, rfl⟩ := decompose_eq_ok_iff.1 h
  exact restrict_assemble (nodup_reachable.filter _) (List.Subset.refl _)

/-! ## Loop heads -/

/-- The automaton without the edges that leave the error location. -/
def truncate (a : Automaton) : Automaton :=
  { a with edges := a.edges.filter (·.source ≠ a.error) }

/-- The number of an edge among those that do not leave the error location. -/
def position (a : Automaton) (i : Nat) : Nat := (a.edges.take i).countP (·.source ≠ a.error)

theorem mem_targets_truncate : m ∈ a.truncate.targets l ↔ l ≠ a.error ∧ m ∈ a.targets l := by
  simp only [mem_targets, truncate, List.mem_filter, decide_eq_true_eq]
  constructor
  · rintro ⟨e, ⟨he, hne⟩, rfl, htarget⟩
    exact ⟨hne, e, he, rfl, htarget⟩
  · rintro ⟨hne, e, he, rfl, htarget⟩
    exact ⟨e, ⟨he, hne⟩, rfl, htarget⟩

theorem zipIdx_filter {α : Type} {keep mine : α → Bool} (h : ∀ x, mine x = true → keep x = true)
    (xs : List α) :
    (xs.filter keep).zipIdx.filter (fun x => mine x.1) =
      (xs.zipIdx.filter fun x => mine x.1).map fun x => (x.1, (xs.take x.2).countP keep) := by
  induction xs using List.reverseRecOn with
  | nil => rfl
  | append_singleton xs x ih =>
    have hbefore : (xs.zipIdx.filter fun x => mine x.1).map
          (fun y => (y.1, ((xs ++ [x]).take y.2).countP keep)) =
        (xs.zipIdx.filter fun x => mine x.1).map fun y => (y.1, (xs.take y.2).countP keep) := by
      refine List.map_congr_left fun y hy => ?_
      have hlt := List.snd_lt_of_mem_zipIdx (List.mem_filter.1 hy).1
      rw [List.take_append_of_le_length (by omega)]
    rw [List.filter_append, List.zipIdx_append, List.zipIdx_append, List.filter_append,
      List.filter_append, List.map_append, hbefore, ih]
    congr 1
    cases hmine : mine x with
    | false =>
      cases hkeep : keep x <;> simp [hmine, hkeep]
    | true => simp [hmine, h x hmine, List.countP_eq_length_filter]

theorem successors_truncate (hl : l ≠ a.error) :
    a.truncate.successors l = (a.successors l).map fun e => (a.position e.1, e.2) := by
  have hkeep : ∀ e : Edge, decide (e.source = l) = true → decide (e.source ≠ a.error) = true := by
    intro e he
    rw [decide_eq_true_eq] at he ⊢
    rwa [he]
  have hzip := zipIdx_filter hkeep a.edges
  show (a.truncate.edges.zipIdx.filter fun x => decide (x.1.source = l)).map
    (fun x => (x.2, x.1.target)) = _
  rw [truncate, hzip, successors, List.map_map, List.map_map]
  rfl

theorem targets_truncate (hl : l ≠ a.error) : a.truncate.targets l = a.targets l := by
  rw [targets, successors_truncate hl, List.map_map]
  rfl

theorem localTargets_truncate (a : Automaton) (nodes : List Loc) :
    a.truncate.localTargets nodes = a.localTargets nodes := by
  funext l
  show (if l = a.error then [] else (a.truncate.targets l).filter (· ∈ nodes)) = _
  rw [localTargets]
  split
  · rfl
  · next hl => rw [targets_truncate hl]

theorem components_truncate (a : Automaton) (nodes : List Loc) :
    a.truncate.components nodes = a.components nodes := by
  rw [components, components, localTargets_truncate]

theorem isCyclic_truncate (a : Automaton) (component : List Loc) :
    a.truncate.isCyclic component = a.isCyclic component := by
  rw [isCyclic.eq_def, isCyclic.eq_def]
  split
  · rw [localTargets_truncate]
  · rfl

theorem exits_truncate (h : a.error ∉ component) :
    a.truncate.exits component = a.exits component := by
  refine List.filter_congr fun l hl => ?_
  rw [targets_truncate fun heq => h (heq ▸ hl)]

theorem headsWithin_truncate (a : Automaton) (fuel : Nat) (nodes : List Loc) :
    a.truncate.headsWithin fuel nodes = a.headsWithin fuel nodes := by
  induction fuel generalizing nodes with
  | zero => rfl
  | succ fuel ih =>
    rw [headsWithin, headsWithin, components_truncate]
    refine congrArg (· >>= _) (mapM_congr fun component hcomponent => ?_)
    rw [isCyclic_truncate]
    split
    · next hcyclic =>
      rw [exits_truncate (error_not_mem_of_isCyclic hcomponent hcyclic)]
      simp only [ih]
      rfl
    · rfl

theorem WellFormed.truncate (h : a.WellFormed) : a.truncate.WellFormed where
  plain := h.plain
  nodup := h.nodup
  entry_lt := h.entry_lt
  error_lt := h.error_lt
  target_lt e he := h.target_lt e (List.mem_filter.1 he).1
  declared e he := h.declared e (List.mem_filter.1 he).1

/-- What can be reached without the edges that leave the error location is a closed part of what
can be reached. -/
theorem WellFormed.closedIn (h : a.WellFormed) : a.ClosedIn a.reachable a.truncate.reachable := by
  obtain ⟨hentry, hclosed⟩ := reachable_closed h
  refine ⟨visit_forall (P := (· ∈ a.reachable)) (fun l hl m hm => ?_)
    (List.forall_mem_singleton.2 hentry), fun l hl m hm => ?_⟩
  · exact hclosed l hl m (mem_targets_truncate.1 hm).2
  · obtain ⟨hne, htarget, -⟩ := mem_localTargets.1 hm
    exact (reachable_closed h.truncate).2 l hl m (mem_targets_truncate.2 ⟨hne, htarget⟩)

/-! ## Segments -/

def Walk.renumber (position : Nat → Nat) (w : Walk) : Walk :=
  { w with edges := w.edges.map position }

theorem steps_truncate {w : Walk} (h : w.loc ≠ a.error) :
    (w.renumber a.position).steps a.truncate = (w.steps a).map (Walk.renumber a.position) := by
  show (a.truncate.successors w.loc).map (fun e => (w.renumber a.position).step e.1 e.2) = _
  rw [successors_truncate h, Walk.steps, List.map_map, List.map_map]
  refine List.map_congr_left fun e _ => ?_
  simp [Walk.step, Walk.renumber]

theorem endpointAt_truncate (h : l ∈ heads' ↔ l ∈ heads) :
    a.truncate.endpointAt heads' l = a.endpointAt heads l := by
  show (if l ∈ heads' then _ else if l = a.error then _ else _) = _
  simp only [h]
  rfl

section

/- A part that no edge leaves, apart from those of the error location, with the same loop heads. -/
variable (hclosed : ∀ l ∈ part, l ≠ a.error → ∀ m ∈ a.targets l, m ∈ part)
  (hheads : ∀ l ∈ part, l ∈ heads' ↔ l ∈ heads)

include hclosed hheads

/-- Walks in the part, none of them at the error location, go on alike. -/
theorem segmentsFrom_truncate (start : Endpoint) (fuel : Nat) {walks : List Walk}
    (hwalks : ∀ w ∈ walks, w.loc ∈ part ∧ w.loc ≠ a.error) :
    a.truncate.segmentsFrom heads' start fuel (walks.map (Walk.renumber a.position)) =
      (a.segmentsFrom heads start fuel walks).map (Segment.renumber a.position) := by
  induction fuel generalizing walks with
  | zero => rfl
  | succ fuel ih =>
    have hlonger : (walks.map (Walk.renumber a.position)).flatMap (Walk.steps a.truncate) =
        (walks.flatMap (Walk.steps a)).map (Walk.renumber a.position) := by
      rw [List.flatMap_map, List.map_flatMap]
      exact List.flatMap_congr fun w hw => steps_truncate (hwalks w hw).2
    have hmem : ∀ w ∈ walks.flatMap (Walk.steps a), w.loc ∈ part := by
      intro w' hw'
      obtain ⟨w, hw, hstep⟩ := List.mem_flatMap.1 hw'
      obtain ⟨i, m, hnext, rfl⟩ := mem_steps.1 hstep
      exact hclosed w.loc (hwalks w hw).1 (hwalks w hw).2 m (target_of_successor hnext)
    rw [segmentsFrom, segmentsFrom, hlonger]
    generalize walks.flatMap (Walk.steps a) = longer at hmem
    have hend : ∀ w ∈ longer,
        a.truncate.endpointAt heads' (w.renumber a.position).loc = a.endpointAt heads w.loc :=
      fun w hw => endpointAt_truncate (hheads w.loc (hmem w hw))
    rw [List.map_append, List.filterMap_map, List.map_filterMap, List.filter_map]
    congr 1
    · refine List.filterMap_congr fun w hw => ?_
      rw [Function.comp_apply, hend w hw]
      cases a.endpointAt heads w.loc <;> rfl
    · rw [← ih]
      · congr 2
        refine List.filter_congr fun w hw => ?_
        rw [Function.comp_apply, hend w hw]
        rfl
      · intro w hw
        obtain ⟨hw, hkept⟩ := List.mem_filter.1 hw
        rw [Bool.and_eq_true, Option.isNone_iff_eq_none] at hkept
        exact ⟨hmem w hw, (endpointAt_eq_none.1 hkept.1).2⟩

theorem segmentsAt_truncate (start : Endpoint) (hl : l ∈ part) (hne : l ≠ a.error) :
    a.truncate.segmentsAt heads' start l =
      (a.segmentsAt heads start l).map (Segment.renumber a.position) := by
  have hwalk : ∀ w ∈ [(⟨l, [], [l]⟩ : Walk)], w.loc ∈ part ∧ w.loc ≠ a.error :=
    List.forall_mem_singleton.2 ⟨hl, hne⟩
  exact segmentsFrom_truncate hclosed hheads start _ hwalk

theorem entrySegments_truncate (hentry : a.entry ∈ part) :
    a.truncate.entrySegments heads' =
      (a.entrySegments heads).map (Segment.renumber a.position) := by
  have hend : a.truncate.endpointAt heads' a.truncate.entry = a.endpointAt heads a.entry :=
    endpointAt_truncate (hheads a.entry hentry)
  rw [entrySegments, entrySegments, hend]
  cases hstop : a.endpointAt heads a.entry with
  | some stop => rfl
  | none => exact segmentsAt_truncate hclosed hheads .entry hentry (endpointAt_eq_none.1 hstop).2

theorem assemble_truncate (hentry : a.entry ∈ part) (hpart : heads' ⊆ part) (hnodup : heads.Nodup)
    (herror : a.error ∉ heads) :
    a.truncate.assemble heads' = ((a.assemble heads).restrict heads').renumber a.position := by
  have hsubset : heads' ⊆ heads := fun l hl => (hheads l (hpart hl)).1 hl
  rw [restrict_assemble hnodup hsubset, assemble, Decomposition.renumber,
    entrySegments_truncate hclosed hheads hentry, List.map_append, List.map_flatMap]
  congr 2
  refine List.flatMap_congr fun l hl => ?_
  exact segmentsAt_truncate hclosed hheads _ (hpart hl) fun heq => herror (heq ▸ hsubset hl)

end

/-! ## Decompositions -/

theorem WellFormed.closed_truncate (h : a.WellFormed) :
    ∀ l ∈ a.truncate.reachable, l ≠ a.error → ∀ m ∈ a.targets l, m ∈ a.truncate.reachable :=
  fun l hl hne m hm =>
    (reachable_closed h.truncate).2 l hl m (mem_targets_truncate.2 ⟨hne, hm⟩)

/-- A success stays one without the edges that leave the error location. The loop heads and segments
that are left are those from what can still be reached. -/
theorem decompose_truncate (hwf : a.WellFormed) {d : Decomposition} (h : a.decompose = .ok d) :
    a.truncate.decompose =
      .ok ((d.restrict (a.truncate.reachable.filter (· ∈ d.loopHeads))).renumber a.position) := by
  obtain ⟨found, hfound, rfl⟩ := decompose_eq_ok_iff.1 h
  obtain ⟨found', hfound', hmem⟩ := restricts a _ (a.truncate.reachable.length + 1) _ _ _
    hwf.closedIn (Nat.le_succ _) (Nat.le_succ _) hfound
  rw [← headsWithin_truncate] at hfound'
  refine decompose_eq_ok_iff.2 ⟨found', hfound', ?_⟩
  have hsame : a.truncate.reachable.filter (· ∈ found') =
      a.truncate.reachable.filter (· ∈ a.reachable.filter (· ∈ found)) := by
    refine List.filter_congr fun l hl => decide_eq_decide.2 ?_
    rw [hmem, List.mem_filter, decide_eq_true_eq]
    exact ⟨fun hin => ⟨hwf.closedIn.subset hl, hin.1⟩, fun hin => ⟨hin.2, hl⟩⟩
  rw [hsame]
  refine assemble_truncate hwf.closed_truncate (fun l hl => ?_) (reachable_closed hwf.truncate).1
    (fun l hl => (List.mem_filter.1 hl).1) (nodup_reachable.filter _) fun hin => ?_
  · rw [List.mem_filter, decide_eq_true_eq]
    exact and_iff_right hl
  · exact error_not_mem_headsWithin hfound (of_decide_eq_true (List.mem_filter.1 hin).2)

/-- The loop heads can all be reached without the edges that leave the error location exactly if the
loops that cannot be so reached are never left. -/
theorem loopHeads_subset_iff (hwf : a.WellFormed) {d : Decomposition} (h : a.decompose = .ok d) :
    d.loopHeads ⊆ a.truncate.reachable ↔ a.Trapping a.reachable a.truncate.reachable := by
  obtain ⟨found, hfound, rfl⟩ := decompose_eq_ok_iff.1 h
  rw [← hwf.closedIn.heads_subset_iff (reachable_closed hwf).2 hfound]
  constructor
  · intro hsubset l hl
    exact hsubset (List.mem_filter.2 ⟨headsWithin_subset hfound hl, decide_eq_true hl⟩)
  · intro hsubset l hl
    exact hsubset (of_decide_eq_true (List.mem_filter.1 hl).2)

end Automaton

open Automaton in
/-- What the edges that leave the error location change. If there is a decomposition, there is one
without these edges: its loop heads and segments are those from what can still be reached, in the
order in which that is found. Nothing is changed at all, not even whether there is a decomposition,
exactly if without these edges there is none, or the loop heads are found in the same order with and
without them and every loop that can be reached only through the error location is never left. -/
theorem truncated_decomposition {description : Description} {a : Automaton}
    (ha : ofDescription description = .ok a) :
    (∀ d, a.decompose = .ok d → a.truncate.decompose =
      .ok ((d.restrict (a.truncate.reachable.filter (· ∈ d.loopHeads))).renumber a.position)) ∧
    (a.decompose.toOption.map (·.renumber a.position) = a.truncate.decompose.toOption ↔
      ∀ d, a.truncate.decompose = .ok d →
        a.reachable.filter (· ∈ d.loopHeads) = d.loopHeads ∧
          a.Trapping a.reachable a.truncate.reachable) := by
  have hwf := wellFormed_of_ofDescription ha
  refine ⟨fun d => decompose_truncate hwf, ⟨fun hsame d hd => ?_, fun hcond => ?_⟩⟩
  · rw [hd] at hsame
    obtain ⟨d₀, hd₀, rfl⟩ := Option.map_eq_some_iff.1 hsame
    rw [toOption_eq_some_iff] at hd₀
    refine ⟨?_, (loopHeads_subset_iff hwf hd₀).1 fun l hl => (decomposes hd).reachable l hl⟩
    exact loopHeads_filter (d := d₀) hd₀
  · cases hdecompose : a.decompose with
    | ok d =>
      have htruncate := decompose_truncate hwf hdecompose
      obtain ⟨horder, htrap⟩ := hcond _ htruncate
      have hsubset := (loopHeads_subset_iff hwf hdecompose).2 htrap
      have hheads : a.truncate.reachable.filter (· ∈ d.loopHeads) = d.loopHeads := by
        refine horder.symm.trans (Eq.trans (List.filter_congr fun l _ => decide_eq_decide.2 ?_)
          (loopHeads_filter hdecompose))
        show l ∈ a.truncate.reachable.filter (· ∈ d.loopHeads) ↔ _
        rw [List.mem_filter, decide_eq_true_eq]
        exact and_iff_right_of_imp fun hl => hsubset hl
      rw [htruncate, hheads, restrict_loopHeads hdecompose]
      rfl
    | error e =>
      cases htruncate : a.truncate.decompose with
      | error e' => rfl
      | ok d =>
        obtain ⟨found', hfound', -⟩ := decompose_eq_ok_iff.1 htruncate
        rw [headsWithin_truncate] at hfound'
        obtain ⟨found, hfound⟩ := hwf.closedIn.exists_headsWithin (reachable_closed hwf).2
          (hcond d htruncate).2 (Nat.le_succ _) (Nat.le_succ _) hfound'
        cases hdecompose.symm.trans (decompose_eq_ok_iff.2 ⟨found, hfound, rfl⟩)

/-- A loop before the error location and one behind it, which is never left. -/
def pitBehind : Automaton where
  decls := []
  locations := ["start", "head", "error", "pit"]
  entry := 0
  error := 2
  edges := [⟨0, 1, []⟩, ⟨1, 1, []⟩, ⟨2, 3, []⟩, ⟨1, 2, []⟩, ⟨3, 3, []⟩]

/-- Without the third edge the fourth is the third, and that is all. -/
theorem pitBehind_truncated :
    pitBehind.truncate.decompose = .ok
      ⟨[1], [⟨.entry, .head 1, [0]⟩, ⟨.head 1, .head 1, [1]⟩, ⟨.head 1, .error, [2]⟩]⟩ ∧
    pitBehind.Trapping [0, 1, 2, 3] [0, 1, 2] := by
  have ha : Automaton.ofDescription pitBehind.describe = .ok pitBehind := by decide +kernel
  obtain ⟨htruncate, hiff⟩ := truncated_decomposition ha
  have hd : pitBehind.decompose = .ok
      ⟨[1], [⟨.entry, .head 1, [0]⟩, ⟨.head 1, .head 1, [1]⟩, ⟨.head 1, .error, [3]⟩]⟩ := by
    decide +kernel
  have hd' := htruncate _ hd
  refine ⟨hd'.trans (by decide +kernel), ?_⟩
  exact (hiff.1 (by decide +kernel) _ hd').2

def loopBehind : Automaton where
  decls := []
  locations := ["start", "error", "loop", "out"]
  entry := 0
  error := 1
  edges := [⟨0, 1, []⟩, ⟨1, 2, []⟩, ⟨2, 2, []⟩, ⟨2, 3, []⟩]

def forkBehind : Automaton where
  decls := []
  locations := ["start", "error", "loop", "other", "out"]
  entry := 0
  error := 1
  edges := [⟨0, 1, []⟩, ⟨1, 2, []⟩, ⟨2, 3, []⟩, ⟨3, 2, []⟩, ⟨2, 4, []⟩, ⟨3, 4, []⟩]

/-- Two loops, the second of which can also be reached through the error location. -/
def shortcut : Automaton where
  decls := []
  locations := ["start", "error", "way", "first", "second"]
  entry := 0
  error := 1
  edges := [⟨0, 1, []⟩, ⟨0, 2, []⟩, ⟨1, 4, []⟩, ⟨2, 3, []⟩, ⟨3, 3, []⟩, ⟨3, 4, []⟩, ⟨4, 4, []⟩,
    ⟨4, 1, []⟩]

/-- A loop behind the error location adds a head and a segment, or there is no decomposition at all.
A way through the error location changes the order of the heads. -/
theorem loopBehind_counted :
    loopBehind.decompose = .ok ⟨[2], [⟨.entry, .error, [0]⟩, ⟨.head 2, .head 2, [2]⟩]⟩ ∧
    loopBehind.truncate.decompose = .ok ⟨[], [⟨.entry, .error, [0]⟩]⟩ ∧
    forkBehind.decompose = .error (.multipleLoopExits ["loop", "other"] ["loop", "other"]) ∧
    forkBehind.truncate.decompose = .ok ⟨[], [⟨.entry, .error, [0]⟩]⟩ ∧
    shortcut.decompose.toOption.map (·.loopHeads) = some [4, 3] ∧
    shortcut.truncate.decompose.toOption.map (·.loopHeads) = some [3, 4] := by
  decide +kernel

end LoopInvariant
