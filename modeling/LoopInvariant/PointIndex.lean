import LoopInvariant.Datapoint
/-!
# Datapoints and what lies inside and around them

A set of datapoints in which each knows the others strictly inside it and strictly around it. A new
datapoint is compared once with those that are there, and what is found is noted on both sides.
-/

namespace LoopInvariant

/-- The datapoints of a set strictly inside one of them, and those strictly around it. -/
structure Relatives where
  subsets : SortedSet Datapoint
  supersets : SortedSet Datapoint

namespace Relatives

variable {r : Relatives} {d e x : Datapoint}

/-- Note a new datapoint among the relatives of another. -/
def note (r : Relatives) (e d : Datapoint) : Relatives :=
  if d.subset e then { r with subsets := r.subsets.insert d }
  else if e.subset d then { r with supersets := r.supersets.insert d }
  else r

theorem contains_subsets_note :
    (r.note e d).subsets.contains x = true ↔
      (x = d ∧ d.subset e = true) ∨ r.subsets.contains x = true := by
  rw [note]
  split
  · next hsub => simp [SortedSet.contains_insert, hsub]
  · next hsub =>
    rw [Bool.not_eq_true] at hsub
    split <;> simp [hsub]

theorem contains_supersets_note (hne : e ≠ d) :
    (r.note e d).supersets.contains x = true ↔
      (x = d ∧ e.subset d = true) ∨ r.supersets.contains x = true := by
  rw [note]
  split
  · next hsub =>
    have hproper : e.subset d = false :=
      Bool.eq_false_iff.2 fun hsub' => hne (Datapoint.subset_antisymm hsub' hsub)
    simp [hproper]
  · split
    · next hsub => simp [SortedSet.contains_insert, hsub]
    · next hsub =>
      rw [Bool.not_eq_true] at hsub
      simp [hsub]

end Relatives

/-- Datapoints with their relatives. -/
abbrev Relations := SortedMap Datapoint Relatives

namespace Relations

variable {m : Relations} {d e x : Datapoint}

/-- The relatives of a new datapoint. -/
def relativesOf (m : Relations) (d : Datapoint) : Relatives where
  subsets := .ofKeys (m.filter fun e _ => !d.subset e && e.subset d)
  supersets := .ofKeys (m.filter fun e _ => d.subset e)

/-- Add a new datapoint. -/
def enter (m : Relations) (d : Datapoint) : Relations :=
  (m.mapEntries fun e r => r.note e d).insert d (m.relativesOf d)

/-- Every datapoint knows exactly what lies strictly inside it and strictly around it. -/
def Exact (m : Relations) : Prop :=
  ∀ d r, m.get? d = some r → ∀ e,
    (r.subsets.contains e = true ↔ m.contains e = true ∧ e.subset d = true ∧ e ≠ d) ∧
      (r.supersets.contains e = true ↔ m.contains e = true ∧ d.subset e = true ∧ e ≠ d)

theorem contains_subsets_relativesOf (hd : m.contains d = false) :
    (m.relativesOf d).subsets.contains e = true ↔ m.contains e = true ∧ e.subset d = true := by
  rw [relativesOf, SortedSet.contains_ofKeys, SortedMap.contains_filter, Bool.and_eq_true,
    Bool.not_eq_true']
  constructor
  · exact fun h => ⟨h.1, h.2.2⟩
  · intro h
    refine ⟨h.1, Bool.eq_false_iff.2 fun hsub => ?_, h.2⟩
    rw [Datapoint.subset_antisymm hsub h.2, h.1] at hd
    cases hd

theorem contains_supersets_relativesOf :
    (m.relativesOf d).supersets.contains e = true ↔ m.contains e = true ∧ d.subset e = true := by
  rw [relativesOf, SortedSet.contains_ofKeys, SortedMap.contains_filter]

theorem get?_enter (m : Relations) (d x : Datapoint) :
    (m.enter d).get? x =
      if x = d then some (m.relativesOf d) else (m.get? x).map fun r => r.note x d := by
  rw [enter, SortedMap.get?_insert, SortedMap.get?_mapEntries]

theorem contains_enter : (m.enter d).contains x = true ↔ x = d ∨ m.contains x = true := by
  rw [SortedMap.contains, get?_enter]
  split
  · next heq => simp [heq]
  · next hne => simp [hne, SortedMap.contains]

/-- What is noted about a new datapoint keeps the relations exact. -/
theorem Exact.enter (h : m.Exact) (hd : m.contains d = false) : (m.enter d).Exact := by
  have hne : ∀ {x}, m.contains x = true → x ≠ d := by
    intro x hx heq
    rw [heq, hd] at hx
    cases hx
  intro x r hr e
  rw [get?_enter] at hr
  rw [contains_enter]
  split at hr
  · next heq =>
    cases hr
    rw [heq, contains_subsets_relativesOf hd, contains_supersets_relativesOf]
    constructor
    · exact ⟨fun hsub => ⟨.inr hsub.1, hsub.2, hne hsub.1⟩,
        fun hsub => ⟨hsub.1.resolve_left hsub.2.2, hsub.2.1⟩⟩
    · exact ⟨fun hsub => ⟨.inr hsub.1, hsub.2, hne hsub.1⟩,
        fun hsub => ⟨hsub.1.resolve_left hsub.2.2, hsub.2.1⟩⟩
  · next hx =>
    obtain ⟨own, hown, rfl⟩ := Option.map_eq_some_iff.1 hr
    obtain ⟨hsubsets, hsupersets⟩ := h x own hown e
    rw [Relatives.contains_subsets_note, Relatives.contains_supersets_note hx, hsubsets, hsupersets]
    by_cases he : e = d
    · subst he
      simp [hd, Ne.symm hx]
    · simp [he]

end Relations

/-- Datapoints, each of which knows the others inside it and around it. -/
structure PointIndex where
  relations : Relations
  exact : relations.Exact

namespace PointIndex

/-- The index without datapoints. -/
def empty : PointIndex := ⟨∅, fun _ _ h => by cases h⟩

instance : EmptyCollection PointIndex := ⟨empty⟩

variable (s : PointIndex)

/-- The datapoints in ascending order. -/
def toList : List Datapoint := s.relations.keys

/-- Whether a datapoint is there. -/
def contains (d : Datapoint) : Bool := s.relations.contains d

/-- The number of datapoints. -/
def size : Nat := s.relations.size

/-- Add a datapoint. -/
def insert (d : Datapoint) : PointIndex :=
  if h : s.relations.contains d then s
  else ⟨s.relations.enter d, s.exact.enter (Bool.eq_false_iff.2 h)⟩

/-- The datapoints strictly inside one that is there. -/
def subsetsOf (d : Datapoint) : List Datapoint :=
  ((s.relations.get? d).map (·.subsets.toList)).getD []

/-- The datapoints strictly around one that is there. -/
def supersetsOf (d : Datapoint) : List Datapoint :=
  ((s.relations.get? d).map (·.supersets.toList)).getD []

end PointIndex

end LoopInvariant
