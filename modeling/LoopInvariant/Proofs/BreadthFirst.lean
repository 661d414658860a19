import LoopInvariant.Proofs.Segment
import Mathlib.Order.Lattice.Nat
/-!
# The order of the search from the entry

The search visits locations by their depth, the length of a shortest path from the entry. The queue
holds two depths at most, the smaller one first. A path to a location that was not seen leaves the
locations seen from one in the queue, so that it is longer than the depth of the queue's head. What
the head adds to the queue is therefore exactly one edge deeper than the head.
-/

namespace LoopInvariant

namespace Automaton

variable {a : Automaton} {l m : Loc} {es : List Nat}

/-! ## Depth -/

/-- The length of a shortest path from the entry. -/
noncomputable def depth (a : Automaton) (l : Loc) : Nat :=
  sInf {n | ∃ es, a.Path a.entry es l ∧ es.length = n}

theorem Path.depth_le (h : a.Path a.entry es l) : a.depth l ≤ es.length :=
  Nat.sInf_le ⟨es, h, rfl⟩

theorem Path.exists_shortest (h : a.Path a.entry es l) :
    ∃ es', a.Path a.entry es' l ∧ es'.length = a.depth l :=
  Nat.sInf_mem (s := {n | ∃ es, a.Path a.entry es l ∧ es.length = n}) ⟨es.length, es, h, rfl⟩

theorem exists_successor (h : m ∈ a.targets l) : ∃ i, (i, m) ∈ a.successors l := by
  obtain ⟨⟨i, k⟩, hmem, rfl⟩ := List.mem_map.1 h
  exact ⟨i, hmem⟩

theorem Path.exists_snoc (h : a.Path a.entry es l) (hm : m ∈ a.targets l) :
    ∃ es', a.Path a.entry es' m := by
  obtain ⟨i, hi⟩ := exists_successor hm
  exact ⟨es ++ [i], .snoc h hi⟩

theorem depth_le_succ (h : a.Path a.entry es l) (hm : m ∈ a.targets l) :
    a.depth m ≤ a.depth l + 1 := by
  obtain ⟨es', hpath, hlength⟩ := h.exists_shortest
  obtain ⟨i, hi⟩ := exists_successor hm
  have hle := (Path.snoc hpath hi).depth_le
  rwa [List.length_append, List.length_singleton, hlength] at hle

/-! ## The queue -/

/-- What is true of the locations seen and of the queue whenever the search goes on. -/
structure Frontier (a : Automaton) (seen queue : List Loc) : Prop where
  entry_mem : a.entry ∈ seen
  sound : ∀ l ∈ seen, ∃ es, a.Path a.entry es l
  queued : queue ⊆ seen
  followed : ∀ l ∈ seen, l ∉ queue → ∀ m ∈ a.targets l, m ∈ seen
  ascending : queue.Pairwise fun l m => a.depth l ≤ a.depth m
  near : ∀ l ∈ queue, ∀ m ∈ queue, a.depth m ≤ a.depth l + 1

variable {seen queue : List Loc}

theorem frontier_entry (a : Automaton) : a.Frontier [a.entry] [a.entry] where
  entry_mem := List.mem_singleton.2 rfl
  sound := List.forall_mem_singleton.2 ⟨[], .nil⟩
  queued := List.Subset.refl _
  followed := fun _ hl hnot => absurd hl hnot
  ascending := List.pairwise_singleton _ _
  near := List.forall_mem_singleton.2 (List.forall_mem_singleton.2 (Nat.le_succ _))

namespace Frontier

/-- A path out of the locations seen goes through the queue. -/
theorem lt_length (h : a.Frontier seen queue) {n : Nat} (hn : ∀ l ∈ queue, n ≤ a.depth l)
    (hpath : a.Path a.entry es m) (hm : m ∉ seen) : n < es.length := by
  induction hpath with
  | nil => exact absurd h.entry_mem hm
  | @snoc es l k i hpath hnext ih =>
    rw [List.length_append, List.length_singleton]
    by_cases hl : l ∈ seen
    · -- the edge that leaves comes from the queue, all else that was seen is followed
      have hqueue : l ∈ queue := by
        by_contra hnot
        exact hm (h.followed l hl hnot k (List.mem_map.2 ⟨(i, k), hnext, rfl⟩))
      exact Nat.lt_succ_of_le (Nat.le_trans (hn l hqueue) hpath.depth_le)
    · exact Nat.lt_succ_of_lt (ih hl)

theorem depth_head_le (h : a.Frontier seen (l :: queue)) : ∀ m ∈ l :: queue, a.depth l ≤ a.depth m :=
  List.forall_mem_cons.2 ⟨Nat.le_refl _, fun _ => List.rel_of_pairwise_cons h.ascending⟩

theorem depth_fresh (h : a.Frontier seen (l :: queue)) (hm : m ∈ a.targets l) (hnew : m ∉ seen) :
    a.depth m = a.depth l + 1 := by
  obtain ⟨es, hpath⟩ := h.sound l (h.queued List.mem_cons_self)
  obtain ⟨es', hpath'⟩ := hpath.exists_snoc hm
  obtain ⟨shortest, hshortest, hlength⟩ := hpath'.exists_shortest
  have hlt := h.lt_length h.depth_head_le hshortest hnew
  exact Nat.le_antisymm (depth_le_succ hpath hm) (hlength ▸ hlt)

variable {fresh : List Loc}

theorem depth_le_next (h : a.Frontier seen (l :: queue))
    (hfresh : ∀ m, m ∈ fresh ↔ m ∈ a.targets l ∧ m ∉ seen) :
    ∀ m ∈ queue ++ fresh, a.depth l ≤ a.depth m := by
  refine List.forall_mem_append.2 ⟨fun m hm => ?_, fun m hm => ?_⟩
  · exact h.depth_head_le m (List.mem_cons_of_mem l hm)
  · rw [h.depth_fresh ((hfresh m).1 hm).1 ((hfresh m).1 hm).2]
    exact Nat.le_succ _

theorem step (h : a.Frontier seen (l :: queue))
    (hfresh : ∀ m, m ∈ fresh ↔ m ∈ a.targets l ∧ m ∉ seen) :
    a.Frontier (seen ++ fresh) (queue ++ fresh) := by
  obtain ⟨hlseen, hqueued⟩ := List.cons_subset.1 h.queued
  have hdepth : ∀ m ∈ fresh, a.depth m = a.depth l + 1 := fun m hm =>
    h.depth_fresh ((hfresh m).1 hm).1 ((hfresh m).1 hm).2
  have hhigh : ∀ m ∈ queue ++ fresh, a.depth m ≤ a.depth l + 1 := by
    refine List.forall_mem_append.2 ⟨fun m hm => ?_, fun m hm => (hdepth m hm).le⟩
    exact h.near l List.mem_cons_self m (List.mem_cons_of_mem l hm)
  refine ⟨List.mem_append_left _ h.entry_mem, ?_, ?_, ?_, ?_, ?_⟩
  · refine List.forall_mem_append.2 ⟨h.sound, fun m hm => ?_⟩
    obtain ⟨es, hpath⟩ := h.sound l hlseen
    exact hpath.exists_snoc ((hfresh m).1 hm).1
  · exact List.append_subset.2 ⟨fun m hm => List.mem_append_left _ (hqueued hm),
      List.subset_append_right _ _⟩
  · intro k hk hnot m hm
    rw [List.mem_append, not_or] at hnot
    rcases List.mem_append.1 hk with hk | hk
    · by_cases heq : k = l
      · subst heq
        by_cases hseen : m ∈ seen
        · exact List.mem_append_left _ hseen
        · exact List.mem_append_right _ ((hfresh m).2 ⟨hm, hseen⟩)
      · exact List.mem_append_left _ (h.followed k hk
          (fun hmem => (List.mem_cons.1 hmem).elim heq hnot.1) m hm)
    · exact absurd hk hnot.2
  · refine List.pairwise_append.2 ⟨h.ascending.of_cons, ?_, fun k hk m hm => ?_⟩
    · refine List.pairwise_of_forall_mem_list fun k hk m hm => ?_
      rw [hdepth k hk, hdepth m hm]
    · rw [hdepth m hm]
      exact hhigh k (List.mem_append_left _ hk)
  · intro k hk m hm
    exact Nat.le_trans (hhigh m hm) (Nat.succ_le_succ (h.depth_le_next hfresh k hk))

/-- From then on locations are visited by depth, and none before those queued. -/
theorem visit (h : a.Frontier seen queue) (fuel : Nat) :
    (a.visit fuel seen queue).Pairwise (fun l m => a.depth l ≤ a.depth m) ∧
      ∀ n, (∀ l ∈ queue, n ≤ a.depth l) → ∀ l ∈ a.visit fuel seen queue, n ≤ a.depth l := by
  induction fuel generalizing seen queue with
  | zero => cases queue <;> simp [Automaton.visit]
  | succ fuel ih =>
    cases queue with
    | nil => simp [Automaton.visit]
    | cons l queue =>
      obtain ⟨fresh, -, hfresh, hvisit⟩ := exists_fresh a fuel seen l queue
      obtain ⟨hascending, hlow⟩ := ih (h.step hfresh)
      have hqueued := h.depth_le_next hfresh
      rw [hvisit]
      refine ⟨List.pairwise_cons.2 ⟨hlow _ hqueued, hascending⟩, fun n hn => ?_⟩
      have hl := hn l List.mem_cons_self
      exact List.forall_mem_cons.2 ⟨hl, hlow n fun m hm => Nat.le_trans hl (hqueued m hm)⟩

end Frontier

/-! ## What is visited -/

theorem mem_reachable_iff (hwf : a.WellFormed) :
    l ∈ a.reachable ↔ ∃ es, a.Path a.entry es l := by
  obtain ⟨hentry, hclosed⟩ := reachable_closed hwf
  constructor
  · apply visit_forall (P := fun l => ∃ es, a.Path a.entry es l)
    · intro l hl m hm
      obtain ⟨es, hpath⟩ := hl
      exact hpath.exists_snoc hm
    · exact List.forall_mem_singleton.2 ⟨[], .nil⟩
  · intro h
    obtain ⟨es, hpath⟩ := h
    induction hpath with
    | nil => exact hentry
    | snoc _ hnext ih => exact hclosed _ ih _ (List.mem_map_of_mem hnext)

/-- The locations that can be reached are exactly those to which a path leads from the entry, each
listed once, the entry first and the others in the order of their depth. -/
theorem reachable_breadth_first {description : Description} {a : Automaton}
    (ha : ofDescription description = .ok a) :
    a.reachable.Nodup ∧ (∀ l, l ∈ a.reachable ↔ ∃ es, a.Path a.entry es l) ∧
      a.reachable.head? = some a.entry ∧
      a.reachable.Pairwise fun l m => a.depth l ≤ a.depth m := by
  refine ⟨nodup_reachable, fun l => mem_reachable_iff (wellFormed_of_ofDescription ha), rfl, ?_⟩
  exact (a.frontier_entry.visit _).1

/-- Two ways to one location, one of them with parallel edges, the other with a loop. The last
location leads there and cannot be reached. -/
def detours : Automaton where
  decls := []
  locations := ["start", "left", "right", "join", "island"]
  entry := 0
  error := 3
  edges := [⟨0, 2, []⟩, ⟨0, 1, []⟩, ⟨0, 2, []⟩, ⟨1, 1, []⟩, ⟨1, 3, []⟩, ⟨2, 3, []⟩, ⟨3, 0, []⟩,
    ⟨4, 3, []⟩]

theorem detours_visited :
    detours.reachable = [0, 2, 1, 3] ∧ (∃ es, detours.Path 0 es 3) ∧
      (¬∃ es, detours.Path 0 es 4) ∧ detours.depth 1 ≤ detours.depth 3 := by
  have ha : ofDescription detours.describe = .ok detours := rfl
  have hvisited : detours.reachable = [0, 2, 1, 3] := by decide
  obtain ⟨-, hmem, -, hascending⟩ := reachable_breadth_first ha
  rw [hvisited] at hmem hascending
  refine ⟨hvisited, (hmem 3).1 (by decide), fun h => absurd ((hmem 4).2 h) (by decide), ?_⟩
  exact List.rel_of_pairwise_cons hascending.of_cons.of_cons (List.mem_singleton.2 rfl)

end Automaton

end LoopInvariant
