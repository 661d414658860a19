/-!
# Finite maps in key order

A `SortedMap` is a list of entries whose keys ascend strictly, so a finite map has exactly one
representation: two maps with the same look-ups are equal, and comparing maps is comparing entry
lists. Main statements: `get?_insert`, and `ext` from equal look-ups.
-/

namespace LoopInvariant

open Std

variable {κ : Type} {α β : Type} [Ord κ]

namespace SortedMap

/-- The value at `k` in an entry list. -/
def lookup (k : κ) : List (κ × α) → Option α
  | [] => none
  | (k', a) :: rest =>
    match compare k k' with
    | .eq => some a
    | _ => lookup k rest

/-- Put `a` at `k`, in key order, replacing what stood there. -/
def place (k : κ) (a : α) : List (κ × α) → List (κ × α)
  | [] => [(k, a)]
  | (k', a') :: rest =>
    match compare k k' with
    | .lt => (k, a) :: (k', a') :: rest
    | .eq => (k, a) :: rest
    | .gt => (k', a') :: place k a rest

/-- The keys of an entry list ascend strictly. -/
def Ascending (es : List (κ × α)) : Prop :=
  es.Pairwise fun a b => compare a.1 b.1 = .lt

theorem mem_place {k : κ} {a : α} {e : κ × α} :
    {es : List (κ × α)} → e ∈ place k a es → e = (k, a) ∨ e ∈ es
  | [], h => by simpa [place] using h
  | (k', a') :: rest, h => by
    simp only [place] at h
    split at h
    · simpa using h
    · rcases List.mem_cons.1 h with rfl | h
      · exact .inl rfl
      · exact .inr (List.mem_cons_of_mem _ h)
    · rcases List.mem_cons.1 h with rfl | h
      · exact .inr (List.mem_cons_self ..)
      · exact (mem_place h).imp id (List.mem_cons_of_mem _)

theorem Ascending.place [TransOrd κ] [LawfulEqOrd κ] (k : κ) (a : α) :
    {es : List (κ × α)} → Ascending es → Ascending (place k a es)
  | [], _ => by simp [SortedMap.place, Ascending]
  | (k', a') :: rest, h => by
    have hhead : ∀ {e}, e ∈ rest → compare k' e.1 = .lt := List.rel_of_pairwise_cons h
    simp only [SortedMap.place]
    split
    · next hlt =>
      refine List.Pairwise.cons ?_ h
      intro e he
      rcases List.mem_cons.1 he with rfl | he
      · exact hlt
      · exact TransCmp.lt_trans hlt (hhead he)
    · next heq =>
      refine List.Pairwise.cons ?_ h.of_cons
      intro e he
      rw [LawfulEqCmp.eq_of_compare heq]
      exact hhead he
    · next hgt =>
      refine List.Pairwise.cons ?_ (Ascending.place k a h.of_cons)
      intro e he
      rcases mem_place he with rfl | he
      · exact OrientedCmp.lt_of_gt hgt
      · exact hhead he

theorem lookup_place_self [LawfulEqOrd κ] (k : κ) (a : α) :
    (es : List (κ × α)) → lookup k (place k a es) = some a
  | [] => by simp [place, lookup, ReflCmp.compare_self]
  | (k', a') :: rest => by
    simp only [place]
    split
    · simp [lookup, ReflCmp.compare_self]
    · simp [lookup, ReflCmp.compare_self]
    · next hgt => simp [lookup, hgt, lookup_place_self k a rest]

theorem lookup_place_of_ne [LawfulEqOrd κ] {k j : κ} (a : α) (hne : j ≠ k) :
    (es : List (κ × α)) → lookup j (place k a es) = lookup j es
  | [] => by
    have hjk : compare j k ≠ .eq := fun h => hne (LawfulEqCmp.eq_of_compare h)
    simp only [place, lookup]
  | (k', a') :: rest => by
    have hjk : compare j k ≠ .eq := fun h => hne (LawfulEqCmp.eq_of_compare h)
    have hcons : ∀ es : List (κ × α), lookup j ((k, a) :: es) = lookup j es := by
      intro es
      simp only [lookup]
    simp only [place]
    split
    · rw [hcons]
    · next heq =>
      rw [hcons, ← LawfulEqCmp.eq_of_compare heq]
      simp only [lookup]
    · simp only [lookup, lookup_place_of_ne a hne rest]

theorem lookup_eq_some_iff [TransOrd κ] [LawfulEqOrd κ] {k : κ} {a : α} :
    {es : List (κ × α)} → Ascending es → (lookup k es = some a ↔ (k, a) ∈ es)
  | [], _ => by simp [lookup]
  | (k', a') :: rest, h => by
    have hhead : ∀ {e}, e ∈ rest → compare k' e.1 = .lt := List.rel_of_pairwise_cons h
    simp only [lookup, List.mem_cons, Prod.mk.injEq]
    split
    · next heq =>
      obtain rfl := LawfulEqCmp.eq_of_compare heq
      constructor
      · rintro ⟨⟩
        exact .inl ⟨rfl, rfl⟩
      · rintro (⟨-, rfl⟩ | hmem)
        · rfl
        · exact absurd (hhead hmem) (by simp [ReflCmp.compare_self])
    · next hne =>
      rw [lookup_eq_some_iff h.of_cons]
      constructor
      · exact .inr
      · rintro (⟨rfl, -⟩ | hmem)
        · exact absurd ReflCmp.compare_self hne
        · exact hmem

/-- Entry lists in ascending order with the same look-ups are equal. -/
theorem Ascending.ext [TransOrd κ] [LawfulEqOrd κ] {es fs : List (κ × α)} (hes : Ascending es)
    (hfs : Ascending fs) (h : ∀ k, lookup k es = lookup k fs) : es = fs := by
  have hmem : ∀ e, e ∈ es ↔ e ∈ fs := by
    intro e
    rw [← lookup_eq_some_iff hes, ← lookup_eq_some_iff hfs, h]
  have hirr : ∀ {l : List (κ × α)}, Ascending l → l.Nodup := fun hl =>
    List.Pairwise.imp (fun {a b} hlt heq => by
      have hself : compare b.1 b.1 = .eq := ReflCmp.compare_self
      rw [heq, hself] at hlt
      exact absurd hlt (by decide)) hl
  have hperm : es.Perm fs := (List.perm_ext_iff_of_nodup (hirr hes) (hirr hfs)).2 hmem
  refine hperm.eq_of_pairwise (fun a b _ _ hab hba => ?_) hes hfs
  exact absurd hab (by rw [OrientedCmp.gt_of_lt hba]; decide)

end SortedMap

/-- A finite map whose entries stand in strictly ascending key order. -/
structure SortedMap (κ : Type) (α : Type) [Ord κ] where
  entries : List (κ × α)
  ascending : SortedMap.Ascending entries

namespace SortedMap

/-- The map without entries. -/
def empty : SortedMap κ α := ⟨[], List.Pairwise.nil⟩

instance : EmptyCollection (SortedMap κ α) := ⟨empty⟩

instance : Inhabited (SortedMap κ α) := ⟨empty⟩

instance [DecidableEq κ] [DecidableEq α] : DecidableEq (SortedMap κ α) := fun a b =>
  decidable_of_iff (a.entries = b.entries)
    ⟨fun h => by cases a; cases b; simp_all, fun h => h ▸ rfl⟩

/-- The value at a key. -/
def get? (m : SortedMap κ α) (k : κ) : Option α := lookup k m.entries

/-- Whether the map has a value at the key. -/
def contains (m : SortedMap κ α) (k : κ) : Bool := (m.get? k).isSome

/-- The number of entries. -/
def size (m : SortedMap κ α) : Nat := m.entries.length

/-- The keys in ascending order. -/
def keys (m : SortedMap κ α) : List κ := m.entries.map (·.1)

/-- Put a value at a key, replacing what stood there. -/
def insert [TransOrd κ] [LawfulEqOrd κ] (m : SortedMap κ α) (k : κ) (a : α) : SortedMap κ α :=
  ⟨place k a m.entries, m.ascending.place k a⟩

/-- Put a value at a key that has none. -/
def insertIfNew [TransOrd κ] [LawfulEqOrd κ] (m : SortedMap κ α) (k : κ) (a : α) :
    SortedMap κ α :=
  if m.contains k then m else m.insert k a

/-- Entries inserted from left to right; of two with the same key the later counts. -/
def ofList [TransOrd κ] [LawfulEqOrd κ] (es : List (κ × α)) : SortedMap κ α :=
  es.foldl (fun m e => m.insert e.1 e.2) empty

/-- Keep the entries that satisfy `p`. -/
def filter (p : κ → α → Bool) (m : SortedMap κ α) : SortedMap κ α :=
  ⟨m.entries.filter fun e => p e.1 e.2, m.ascending.filter _⟩

/-- Apply a function to every key with its value. -/
def mapEntries (f : κ → α → β) (m : SortedMap κ α) : SortedMap κ β :=
  ⟨m.entries.map fun e => (e.1, f e.1 e.2), by
    have h := m.ascending
    unfold Ascending at *
    rw [List.pairwise_map]
    exact h⟩

/-- Apply a function to every value. -/
def mapValues (f : α → β) (m : SortedMap κ α) : SortedMap κ β := m.mapEntries fun _ a => f a

@[simp] theorem get?_empty (k : κ) : (∅ : SortedMap κ α).get? k = none := rfl

theorem get?_insert_self [TransOrd κ] [LawfulEqOrd κ] (m : SortedMap κ α) (k : κ) (a : α) :
    (m.insert k a).get? k = some a :=
  lookup_place_self k a m.entries

theorem get?_insert_of_ne [TransOrd κ] [LawfulEqOrd κ] (m : SortedMap κ α) {k j : κ} (a : α)
    (hne : j ≠ k) : (m.insert k a).get? j = m.get? j :=
  lookup_place_of_ne a hne m.entries

theorem get?_insert [TransOrd κ] [LawfulEqOrd κ] [DecidableEq κ] (m : SortedMap κ α) (k j : κ)
    (a : α) : (m.insert k a).get? j = if j = k then some a else m.get? j := by
  by_cases h : j = k
  · rw [if_pos h, h, get?_insert_self]
  · rw [if_neg h, get?_insert_of_ne m a h]

theorem mem_entries_iff [TransOrd κ] [LawfulEqOrd κ] {m : SortedMap κ α} {k : κ} {a : α} :
    (k, a) ∈ m.entries ↔ m.get? k = some a :=
  (lookup_eq_some_iff m.ascending).symm

theorem get?_mapEntries [TransOrd κ] [LawfulEqOrd κ] (f : κ → α → β) (m : SortedMap κ α) (k : κ) :
    (m.mapEntries f).get? k = (m.get? k).map (f k) := by
  ext b
  simp only [← mem_entries_iff, mapEntries, List.mem_map, Prod.mk.injEq, Prod.exists,
    Option.map_eq_some_iff]
  constructor
  · rintro ⟨_, a, ha, rfl, rfl⟩
    exact ⟨a, ha, rfl⟩
  · rintro ⟨a, ha, rfl⟩
    exact ⟨k, a, ha, rfl, rfl⟩

theorem get?_filter_eq_some_iff [TransOrd κ] [LawfulEqOrd κ] {p : κ → α → Bool} {m : SortedMap κ α}
    {k : κ} {a : α} : (m.filter p).get? k = some a ↔ m.get? k = some a ∧ p k a = true := by
  rw [← mem_entries_iff, ← mem_entries_iff, filter, List.mem_filter]

theorem contains_iff {m : SortedMap κ α} {k : κ} : m.contains k = true ↔ ∃ a, m.get? k = some a := by
  rw [contains, Option.isSome_iff_exists]

theorem contains_filter [TransOrd κ] [LawfulEqOrd κ] {p : κ → Bool} {m : SortedMap κ α} {k : κ} :
    (m.filter fun k _ => p k).contains k = true ↔ m.contains k = true ∧ p k = true := by
  simp only [contains_iff, get?_filter_eq_some_iff]
  exact exists_and_right

/-- A map is determined by its look-ups. -/
theorem ext [TransOrd κ] [LawfulEqOrd κ] {m n : SortedMap κ α} (h : ∀ k, m.get? k = n.get? k) :
    m = n := by
  have he : m.entries = n.entries := m.ascending.ext n.ascending h
  cases m; cases n; simp_all

/-- Entries are compared by key, then by value. -/
def compareEntry [Ord α] : κ × α → κ × α → Ordering :=
  compareLex (compareOn Prod.fst) (compareOn Prod.snd)

instance [Ord α] [TransOrd κ] [TransOrd α] : TransCmp (compareEntry : κ × α → κ × α → Ordering) :=
  inferInstanceAs (TransCmp (compareLex (compareOn Prod.fst) (compareOn Prod.snd)))

instance [Ord α] [LawfulEqOrd κ] [LawfulEqOrd α] :
    LawfulEqCmp (compareEntry : κ × α → κ × α → Ordering) where
  compare_self := by simp [compareEntry, compareLex, compareOn]
  eq_of_compare {a b} h := by
    simp only [compareEntry, compareLex, compareOn, Ordering.then_eq_eq] at h
    exact Prod.ext (LawfulEqCmp.eq_of_compare h.1) (LawfulEqCmp.eq_of_compare h.2)

/-- Maps are compared entry by entry; a proper initial part comes first. -/
instance [Ord α] : Ord (SortedMap κ α) where
  compare a b := List.compareLex compareEntry a.entries b.entries

instance [Ord α] [TransOrd κ] [TransOrd α] : TransOrd (SortedMap κ α) where
  eq_swap {a b} := by
    exact OrientedCmp.eq_swap (a := a.entries) (b := b.entries)
  isLE_trans {a b c} h h' := by
    exact TransCmp.isLE_trans (a := a.entries) (b := b.entries) (c := c.entries) h h'

instance [Ord α] [LawfulEqOrd κ] [LawfulEqOrd α] : LawfulEqOrd (SortedMap κ α) where
  compare_self {a} := ReflCmp.compare_self (a := a.entries)
  eq_of_compare {a b} h := by
    have he : a.entries = b.entries := LawfulEqCmp.eq_of_compare (a := a.entries) h
    cases a; cases b; simp_all

end SortedMap

end LoopInvariant
