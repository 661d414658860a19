import LoopInvariant.SortedMap
/-!
# Finite sets in order

A `SortedSet` is a `SortedMap` that holds no values, so its elements are listed once each in
ascending order.
-/

namespace LoopInvariant

open Std

/-- A finite set whose elements are listed in strictly ascending order. -/
structure SortedSet (α : Type) [Ord α] where
  map : SortedMap α Unit

namespace SortedSet

variable {α : Type} [Ord α]

/-- The set without elements. -/
def empty : SortedSet α := ⟨∅⟩

instance : EmptyCollection (SortedSet α) := ⟨empty⟩

instance : Inhabited (SortedSet α) := ⟨empty⟩

/-- The elements in ascending order. -/
def toList (s : SortedSet α) : List α := s.map.keys

/-- Whether the set holds an element. -/
def contains (s : SortedSet α) (a : α) : Bool := s.map.contains a

/-- The number of elements. -/
def size (s : SortedSet α) : Nat := s.map.size

/-- Whether the set has no element. -/
def isEmpty (s : SortedSet α) : Bool := s.map.entries.isEmpty

instance [DecidableEq α] : DecidableEq (SortedSet α) := fun a b =>
  decidable_of_iff (a.map = b.map) ⟨fun h => by cases a; cases b; simp_all, fun h => h ▸ rfl⟩

/-- The keys of a map. -/
def ofKeys {β : Type} (m : SortedMap α β) : SortedSet α := ⟨m.mapEntries fun _ _ => ()⟩

variable [TransOrd α] [LawfulEqOrd α]

theorem contains_ofKeys {β : Type} (m : SortedMap α β) (a : α) :
    (ofKeys m).contains a = m.contains a := by
  rw [contains, ofKeys, SortedMap.contains, SortedMap.get?_mapEntries, Option.isSome_map,
    SortedMap.contains]

/-- Add an element. -/
def insert (s : SortedSet α) (a : α) : SortedSet α := ⟨s.map.insert a ()⟩

theorem contains_insert [DecidableEq α] {s : SortedSet α} {a b : α} :
    (s.insert a).contains b = true ↔ b = a ∨ s.contains b = true := by
  rw [contains, insert, SortedMap.contains, SortedMap.get?_insert]
  by_cases h : b = a
  · simp [h]
  · simp [h, contains, SortedMap.contains]

/-- The set of a list's elements. -/
def ofList (as : List α) : SortedSet α := as.foldl insert empty

end SortedSet

end LoopInvariant
