import LoopInvariant.PointIndex
import LoopInvariant.Proofs.SortedMap
/-!
# Members of a point index

Which datapoints an index lists, also as those inside or around another. The index is determined by
its datapoints.
-/

namespace LoopInvariant

namespace PointIndex

variable {s t : PointIndex} {d e : Datapoint}

theorem nodup_toList (s : PointIndex) : s.toList.Nodup := s.relations.nodup_keys

theorem length_toList (s : PointIndex) : s.toList.length = s.size := s.relations.length_keys

theorem contains_iff_mem_toList : s.contains d = true ↔ d ∈ s.toList := by
  rw [toList, SortedMap.mem_keys_iff, contains, SortedMap.contains_iff]

theorem mem_toList_insert : e ∈ (s.insert d).toList ↔ e = d ∨ e ∈ s.toList := by
  rw [← contains_iff_mem_toList, ← contains_iff_mem_toList, insert]
  split
  · next hd =>
    refine ⟨.inr, fun he => ?_⟩
    rcases he with rfl | he
    · exact hd
    · exact he
  · exact Relations.contains_enter

theorem mem_subsetsOf_iff :
    e ∈ s.subsetsOf d ↔ d ∈ s.toList ∧ e ∈ s.toList ∧ e.subset d = true ∧ e ≠ d := by
  rw [subsetsOf, toList, SortedMap.mem_keys_iff]
  cases hr : s.relations.get? d with
  | none => simp
  | some r =>
    rw [Option.map_some, Option.getD_some, ← SortedSet.contains_iff_mem_toList,
      (s.exact d r hr e).1, SortedMap.mem_keys_iff, SortedMap.contains_iff]
    simp

theorem mem_supersetsOf_iff :
    e ∈ s.supersetsOf d ↔ d ∈ s.toList ∧ e ∈ s.toList ∧ d.subset e = true ∧ e ≠ d := by
  rw [supersetsOf, toList, SortedMap.mem_keys_iff]
  cases hr : s.relations.get? d with
  | none => simp
  | some r =>
    rw [Option.map_some, Option.getD_some, ← SortedSet.contains_iff_mem_toList,
      (s.exact d r hr e).2, SortedMap.mem_keys_iff, SortedMap.contains_iff]
    simp

theorem ext_toList (h : ∀ d, d ∈ s.toList ↔ d ∈ t.toList) : s = t := by
  have hcontains : ∀ d, s.relations.contains d = true ↔ t.relations.contains d = true := by
    intro d
    exact contains_iff_mem_toList.trans ((h d).trans contains_iff_mem_toList.symm)
  have hone : ∀ {s t : PointIndex} {d r},
      (∀ d, s.relations.contains d = true ↔ t.relations.contains d = true) →
        s.relations.get? d = some r → t.relations.get? d = some r := by
    intro s t d r hsame hr
    obtain ⟨r', hr'⟩ := SortedMap.contains_iff.1 ((hsame d).1 (SortedMap.contains_iff.2 ⟨r, hr⟩))
    have hsubsets : r'.subsets = r.subsets := by
      apply SortedSet.ext_toList
      intro e
      simp only [← SortedSet.contains_iff_mem_toList, (s.exact d r hr e).1, (t.exact d r' hr' e).1,
        hsame]
    have hsupersets : r'.supersets = r.supersets := by
      apply SortedSet.ext_toList
      intro e
      simp only [← SortedSet.contains_iff_mem_toList, (s.exact d r hr e).2, (t.exact d r' hr' e).2,
        hsame]
    rw [hr']
    cases r
    cases r'
    simp_all
  have hrelations : s.relations = t.relations := by
    apply SortedMap.ext
    intro d
    ext r
    exact ⟨hone hcontains, hone fun d => (hcontains d).symm⟩
  cases s
  cases t
  simp_all

end PointIndex

end LoopInvariant
