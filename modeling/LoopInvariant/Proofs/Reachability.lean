import LoopInvariant.Decomposition
import LoopInvariant.Proofs.Description
import Mathlib.Data.List.Basic
import Mathlib.Data.List.Nodup
import Mathlib.Data.List.Perm.Subperm
import Mathlib.Logic.Relation
/-!
# What the search from the entry finds

The breadth-first search from the entry finds a set of locations that no edge leaves, each of them
once. It has fuel; a count of the locations not found yet shows that it never runs out.
-/

namespace LoopInvariant

theorem nodup_eraseDups {α : Type} [DecidableEq α] : ∀ xs : List α, xs.eraseDups.Nodup
  | [] => by simp
  | x :: xs => by
    rw [List.eraseDups_cons, List.nodup_cons, List.mem_eraseDups]
    exact ⟨by simp, nodup_eraseDups _⟩
termination_by xs => xs.length
decreasing_by exact Nat.lt_succ_of_le (List.length_filter_le _ _)

namespace Automaton

variable {a : Automaton}

theorem mem_targets {l m : Loc} : m ∈ a.targets l ↔ ∃ e ∈ a.edges, e.source = l ∧ e.target = m := by
  simp only [targets, successors, List.map_map, List.mem_map, List.mem_filter, decide_eq_true_eq,
    Prod.exists, Function.comp_apply]
  constructor
  · rintro ⟨e, i, ⟨hmem, hsource⟩, htarget⟩
    exact ⟨e, List.fst_mem_of_mem_zipIdx hmem, hsource, htarget⟩
  · rintro ⟨e, hmem, hsource, htarget⟩
    obtain ⟨i, hi, hget⟩ := List.mem_iff_getElem.1 hmem
    exact ⟨e, i, ⟨List.mk_mem_zipIdx_iff_getElem?.2 (List.getElem?_eq_some_iff.2 ⟨hi, hget⟩),
      hsource⟩, htarget⟩

/-- One visit: the targets that were not seen join the queue, each once. -/
theorem exists_fresh (a : Automaton) (fuel : Nat) (seen : List Loc) (l : Loc) (queue : List Loc) :
    ∃ fresh : List Loc, fresh.Nodup ∧ (∀ m, m ∈ fresh ↔ m ∈ a.targets l ∧ m ∉ seen) ∧
      a.visit (fuel + 1) seen (l :: queue) = l :: a.visit fuel (seen ++ fresh) (queue ++ fresh) :=
  ⟨_, nodup_eraseDups ((a.targets l).filter (· ∉ seen)), by simp, by rw [visit]⟩

theorem length_le_locations {ls : List Loc} (hnodup : ls.Nodup)
    (hlt : ∀ l ∈ ls, l < a.locations.length) : ls.length ≤ a.locations.length := by
  have hsub : ls ⊆ List.range a.locations.length := fun l hl => List.mem_range.2 (hlt l hl)
  simpa only [List.length_range] using hnodup.length_le_of_subset hsub

/-- The fuel of a visit suffices while it covers the queue and the locations not seen. What is
visited then holds the queue, and what it leads to was seen or is visited too. -/
theorem visit_closed (hwf : a.WellFormed) {fuel : Nat} {seen queue : List Loc}
    (hnodup : seen.Nodup) (hlt : ∀ l ∈ seen, l < a.locations.length)
    (hfuel : queue.length + a.locations.length ≤ fuel + seen.length) :
    queue ⊆ a.visit fuel seen queue ∧
      ∀ l ∈ a.visit fuel seen queue, ∀ m ∈ a.targets l, m ∈ seen ∨ m ∈ a.visit fuel seen queue := by
  induction fuel generalizing seen queue with
  | zero =>
    cases queue with
    | nil => simp [visit]
    | cons l queue =>
      have hseen := length_le_locations hnodup hlt
      simp only [List.length_cons] at hfuel
      omega
  | succ fuel ih =>
    cases queue with
    | nil => simp [visit]
    | cons l queue =>
      obtain ⟨fresh, hdistinct, hfresh, hvisit⟩ := exists_fresh a fuel seen l queue
      rw [hvisit]
      have hnodup' : (seen ++ fresh).Nodup :=
        hnodup.append hdistinct fun m hm hm' => ((hfresh m).1 hm').2 hm
      have hlt' : ∀ m ∈ seen ++ fresh, m < a.locations.length := by
        intro m hm
        rcases List.mem_append.1 hm with hm | hm
        · exact hlt m hm
        · obtain ⟨e, he, -, rfl⟩ := mem_targets.1 ((hfresh m).1 hm).1
          exact hwf.target_lt e he
      have hfuel' : (queue ++ fresh).length + a.locations.length ≤
          fuel + (seen ++ fresh).length := by
        simp only [List.length_append, List.length_cons] at hfuel ⊢
        omega
      obtain ⟨hqueue, hclosed⟩ := ih hnodup' hlt' hfuel'
      have hvisited : ∀ m ∈ fresh, m ∈ l :: a.visit fuel (seen ++ fresh) (queue ++ fresh) :=
        fun m hm => List.mem_cons_of_mem _ (hqueue (List.mem_append_right _ hm))
      constructor
      · exact List.cons_subset_cons l fun m hm => hqueue (List.mem_append_left _ hm)
      · intro p hp m hm
        by_cases hold : m ∈ seen
        · exact .inl hold
        · rcases List.mem_cons.1 hp with rfl | hp
          · exact .inr (hvisited m ((hfresh m).2 ⟨hm, hold⟩))
          · rcases hclosed p hp m hm with hm | hm
            · exact .inr (hvisited m ((List.mem_append.1 hm).resolve_left hold))
            · exact .inr (List.mem_cons_of_mem _ hm)

theorem visit_forall {P : Loc → Prop} (hnext : ∀ l, P l → ∀ m ∈ a.targets l, P m) {fuel : Nat}
    {seen queue : List Loc} (hqueue : ∀ l ∈ queue, P l) : ∀ l ∈ a.visit fuel seen queue, P l := by
  induction fuel generalizing seen queue with
  | zero => cases queue <;> simp [visit]
  | succ fuel ih =>
    cases queue with
    | nil => simp [visit]
    | cons l queue =>
      obtain ⟨hl, hqueue⟩ := List.forall_mem_cons.1 hqueue
      obtain ⟨fresh, -, hfresh, hvisit⟩ := exists_fresh a fuel seen l queue
      rw [hvisit]
      refine List.forall_mem_cons.2 ⟨hl, ih (List.forall_mem_append.2 ⟨hqueue, fun m hm => ?_⟩)⟩
      exact hnext l hl m ((hfresh m).1 hm).1

theorem nodup_visit {fuel : Nat} {seen queue : List Loc} (hqueue : queue.Nodup)
    (hseen : queue ⊆ seen) :
    (a.visit fuel seen queue).Nodup ∧ ∀ l ∈ a.visit fuel seen queue, l ∈ queue ∨ l ∉ seen := by
  induction fuel generalizing seen queue with
  | zero => cases queue <;> simp [visit]
  | succ fuel ih =>
    cases queue with
    | nil => simp [visit]
    | cons m queue =>
      obtain ⟨fresh, hdistinct, hfresh, hvisit⟩ := exists_fresh a fuel seen m queue
      have hfresh : ∀ k ∈ fresh, k ∉ seen := fun k hk => ((hfresh k).1 hk).2
      rw [hvisit]
      obtain ⟨hm, hqueue⟩ := List.nodup_cons.1 hqueue
      obtain ⟨hmseen, hseen⟩ := List.cons_subset.1 hseen
      have hqueue' : (queue ++ fresh).Nodup :=
        hqueue.append hdistinct fun k hk hk' => hfresh k hk' (hseen hk)
      have hseen' : queue ++ fresh ⊆ seen ++ fresh :=
        List.append_subset.2 ⟨fun k hk => List.mem_append_left _ (hseen hk),
          List.subset_append_right _ _⟩
      obtain ⟨hnodup, hvisited⟩ := ih hqueue' hseen'
      have hnew : ∀ l ∈ a.visit fuel (seen ++ fresh) (queue ++ fresh), l ∈ queue ∨ l ∉ seen := by
        intro l hl
        rcases hvisited l hl with h | h
        · exact (List.mem_append.1 h).imp_right (hfresh l)
        · exact .inr fun hin => h (List.mem_append_left _ hin)
      refine ⟨List.nodup_cons.2 ⟨fun hl => ?_, hnodup⟩,
        List.forall_mem_cons.2 ⟨.inl List.mem_cons_self, fun l hl => ?_⟩⟩
      · exact (hnew m hl).elim hm fun h => h hmseen
      · exact (hnew l hl).imp_left (List.mem_cons_of_mem m)

theorem nodup_reachable : a.reachable.Nodup :=
  (nodup_visit (List.nodup_singleton a.entry) (List.Subset.refl _)).1

theorem lt_of_mem_reachable (hwf : a.WellFormed) {l : Loc} (h : l ∈ a.reachable) :
    l < a.locations.length := by
  refine visit_forall (P := (· < a.locations.length)) (fun l _ m hm => ?_)
    (List.forall_mem_singleton.2 hwf.entry_lt) l h
  obtain ⟨e, he, -, rfl⟩ := mem_targets.1 hm
  exact hwf.target_lt e he

/-- The reachable locations hold the entry and all their targets. -/
theorem reachable_closed (hwf : a.WellFormed) :
    a.entry ∈ a.reachable ∧ ∀ l ∈ a.reachable, ∀ m ∈ a.targets l, m ∈ a.reachable := by
  have hfuel : [a.entry].length + a.locations.length ≤
      a.locations.length + 1 + [a.entry].length := by
    simp only [List.length_singleton]
    omega
  obtain ⟨hentry, hclosed⟩ := visit_closed hwf (List.nodup_singleton a.entry)
    (List.forall_mem_singleton.2 hwf.entry_lt) hfuel
  have hentry : a.entry ∈ a.reachable := hentry (List.mem_singleton.2 rfl)
  refine ⟨hentry, fun l hl m hm => ?_⟩
  rcases hclosed l hl m hm with hm | hm
  · rwa [List.mem_singleton.1 hm]
  · exact hm

end Automaton

end LoopInvariant
