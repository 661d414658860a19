import LoopInvariant.SortedSet
/-!
# Look-ups in built maps and sets

What a map holds after it was built from a list, and which elements a set lists. The rest of the
proofs reaches sorted maps and sets only through `get?`, `contains` and membership in `toList`.
-/

namespace LoopInvariant

open Std

namespace SortedMap

variable {κ α : Type} [Ord κ]

theorem length_keys (m : SortedMap κ α) : m.keys.length = m.size := List.length_map _

variable [LawfulEqOrd κ]

theorem nodup_keys (m : SortedMap κ α) : m.keys.Nodup := by
  have hasc : m.entries.Pairwise fun a b => compare a.1 b.1 = .lt := m.ascending
  rw [keys, List.Nodup, List.pairwise_map]
  refine hasc.imp fun {a b} hlt heq => ?_
  have hself : compare b.1 b.1 = .eq := ReflCmp.compare_self
  rw [heq, hself] at hlt
  exact absurd hlt (by decide)

variable [TransOrd κ]

theorem mem_keys_iff {m : SortedMap κ α} {k : κ} :
    k ∈ m.keys ↔ ∃ a, m.get? k = some a := by
  simp only [keys, List.mem_map, Prod.exists]
  constructor
  · rintro ⟨j, a, hmem, rfl⟩
    exact ⟨a, mem_entries_iff.1 hmem⟩
  · rintro ⟨a, ha⟩
    exact ⟨k, a, mem_entries_iff.2 ha, rfl⟩

section OfList

variable [DecidableEq κ]

private theorem get?_foldl_insert (es : List (κ × α)) (m : SortedMap κ α) (k : κ) :
    (∃ a, (es.foldl (fun m e => m.insert e.1 e.2) m).get? k = some a ∧ (k, a) ∈ es) ∨
      ((∀ a, (k, a) ∉ es) ∧ (es.foldl (fun m e => m.insert e.1 e.2) m).get? k = m.get? k) := by
  induction es generalizing m with
  | nil => exact .inr ⟨by simp, rfl⟩
  | cons e rest ih =>
    rw [List.foldl_cons]
    rcases ih (m.insert e.1 e.2) with ⟨a, hget, hmem⟩ | ⟨hnone, hget⟩
    · exact .inl ⟨a, hget, List.mem_cons_of_mem _ hmem⟩
    · rw [get?_insert] at hget
      by_cases hk : k = e.1
      · rw [if_pos hk] at hget
        exact .inl ⟨e.2, hget, by rw [hk]; exact List.mem_cons_self⟩
      · rw [if_neg hk] at hget
        refine .inr ⟨fun a hmem => ?_, hget⟩
        rcases List.mem_cons.1 hmem with rfl | hmem
        · exact hk rfl
        · exact hnone a hmem

theorem mem_of_get?_ofList {es : List (κ × α)} {k : κ} {a : α}
    (hget : (ofList es).get? k = some a) : (k, a) ∈ es := by
  rcases get?_foldl_insert es empty k with ⟨b, hb, hmem⟩ | ⟨-, hnone⟩
  · rw [ofList, hb] at hget
    exact Option.some.inj hget ▸ hmem
  · rw [ofList, hnone] at hget
    cases hget

theorem exists_get?_ofList {es : List (κ × α)} {k : κ} {a : α} (hmem : (k, a) ∈ es) :
    ∃ b, (ofList es).get? k = some b := by
  rcases get?_foldl_insert es empty k with ⟨b, hb, -⟩ | ⟨hnone, -⟩
  · exact ⟨b, hb⟩
  · exact absurd hmem (hnone a)

/-- A list that gives each key one value is the map it builds. -/
theorem get?_ofList_eq_some_iff {es : List (κ × α)}
    (hone : ∀ k a b, (k, a) ∈ es → (k, b) ∈ es → a = b) {k : κ} {a : α} :
    (ofList es).get? k = some a ↔ (k, a) ∈ es := by
  refine ⟨mem_of_get?_ofList, fun hmem => ?_⟩
  obtain ⟨b, hb⟩ := exists_get?_ofList hmem
  rw [hb, hone k a b hmem (mem_of_get?_ofList hb)]

theorem get?_ofList_graph {f : κ → Option α} {ks : List κ} {k : κ} :
    (ofList (ks.filterMap fun x => (f x).map fun a => (x, a))).get? k =
      if k ∈ ks then f k else none := by
  have hmem : ∀ x a, (x, a) ∈ ks.filterMap (fun x => (f x).map fun a => (x, a)) ↔
      x ∈ ks ∧ f x = some a := by
    intro x a
    simp only [List.mem_filterMap, Option.map_eq_some_iff, Prod.mk.injEq]
    constructor
    · rintro ⟨y, hy, b, hb, rfl, rfl⟩
      exact ⟨hy, hb⟩
    · rintro ⟨hx, ha⟩
      exact ⟨x, hx, a, ha, rfl, rfl⟩
  have hone : ∀ x a b, (x, a) ∈ ks.filterMap (fun x => (f x).map fun a => (x, a)) →
      (x, b) ∈ ks.filterMap (fun x => (f x).map fun a => (x, a)) → a = b := by
    intro x a b ha hb
    exact Option.some.inj (((hmem x a).1 ha).2.symm.trans ((hmem x b).1 hb).2)
  ext a
  rw [get?_ofList_eq_some_iff hone, hmem]
  by_cases hk : k ∈ ks
  · simp [hk]
  · simp [hk]

theorem get?_ofList_map {f : κ → α} {ks : List κ} {k : κ} :
    (ofList (ks.map fun x => (x, f x))).get? k = if k ∈ ks then some (f k) else none := by
  rw [← get?_ofList_graph (f := fun x => some (f x)), ← List.filterMap_eq_map]
  rfl

end OfList

theorem get?_mapValues {β : Type} (f : α → β) (m : SortedMap κ α) (k : κ) :
    (m.mapValues f).get? k = (m.get? k).map f :=
  get?_mapEntries (fun _ => f) m k

end SortedMap

namespace SortedSet

variable {α : Type} [Ord α] [LawfulEqOrd α]

theorem nodup_toList (s : SortedSet α) : s.toList.Nodup := s.map.nodup_keys

variable [TransOrd α]

theorem contains_iff_mem_toList {s : SortedSet α} {a : α} : s.contains a = true ↔ a ∈ s.toList := by
  rw [toList, SortedMap.mem_keys_iff, contains, SortedMap.contains, Option.isSome_iff_exists]

theorem ext_toList {s t : SortedSet α} (h : ∀ a, a ∈ s.toList ↔ a ∈ t.toList) : s = t := by
  have hmap : s.map = t.map := by
    apply SortedMap.ext
    intro a
    ext u
    have hiff := h a
    simp only [toList, SortedMap.mem_keys_iff] at hiff
    cases u
    constructor
    · intro hs
      exact (hiff.1 ⟨(), hs⟩).choose_spec
    · intro ht
      exact (hiff.2 ⟨(), ht⟩).choose_spec
  cases s
  cases t
  simp_all

variable [DecidableEq α]

theorem mem_toList_insert {s : SortedSet α} {a b : α} :
    b ∈ (s.insert a).toList ↔ b = a ∨ b ∈ s.toList := by
  simp only [toList, SortedMap.mem_keys_iff, insert, SortedMap.get?_insert]
  by_cases h : b = a
  · simp [h]
  · simp [h]

theorem mem_toList_foldl_insert (as : List α) (s : SortedSet α) (b : α) :
    b ∈ (as.foldl insert s).toList ↔ b ∈ as ∨ b ∈ s.toList := by
  induction as generalizing s with
  | nil => simp
  | cons a rest ih =>
    rw [List.foldl_cons, ih, mem_toList_insert, List.mem_cons, or_left_comm, or_assoc]

theorem mem_toList_ofList {as : List α} {b : α} : b ∈ (ofList as).toList ↔ b ∈ as := by
  rw [ofList, mem_toList_foldl_insert]
  simp [empty, toList, SortedMap.keys, EmptyCollection.emptyCollection, SortedMap.empty]

end SortedSet

end LoopInvariant
