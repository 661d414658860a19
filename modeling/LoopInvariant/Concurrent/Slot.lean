/-!
# Hand-off slots

A slot holds the latest value only. Every value has a generation, and a reader asks for one newer
than the last it saw.
-/

namespace LoopInvariant

/-- A slot. -/
structure Slot (α : Type) where
  value : Option α := none
  /-- How many values were published. -/
  generation : Nat := 0
  closed : Bool := false

namespace Slot

variable {α : Type}

/-- Replace the value. -/
def publish (s : Slot α) (a : α) : Slot α :=
  { s with value := some a, generation := s.generation + 1 }

/-- Publish a value if the slot is empty or the new value may replace the old one. -/
def offer (s : Slot α) (a : α) (replaces : α → Bool) : Bool × Slot α :=
  if s.value.any fun old => !replaces old then (false, s) else (true, s.publish a)

/-- Close the slot for all readers. -/
def close (s : Slot α) : Slot α := { s with closed := true }

/-- What a reader gets. -/
inductive Read (α : Type) where
  /-- A value with its generation. -/
  | newer (generation : Nat) (value : α)
  /-- The slot is closed. -/
  | closed
  /-- There is nothing new yet. -/
  | wait

/-- Read a value newer than the generation seen last. -/
def read (s : Slot α) (seen : Nat) : Read α :=
  if s.closed then .closed
  else
    match s.value with
    | some a => if seen < s.generation then .newer s.generation a else .wait
    | none => .wait

theorem read_eq_newer_iff {s : Slot α} {seen g : Nat} {a : α} :
    s.read seen = .newer g a ↔
      s.closed = false ∧ s.value = some a ∧ s.generation = g ∧ seen < g := by
  rw [read]
  constructor
  · intro h
    split at h
    · cases h
    · next hopen =>
      split at h
      · next b hvalue =>
        split at h
        · next hseen =>
          cases h
          exact ⟨Bool.not_eq_true _ ▸ hopen, hvalue, rfl, hseen⟩
        · cases h
      · cases h
  · rintro ⟨hopen, hvalue, rfl, hseen⟩
    simp [hopen, hvalue, hseen]

end Slot

end LoopInvariant
