/-!
# Checked integers

The integers of programs have 64 bits and do not wrap: a result outside of the range is no result.
-/

namespace LoopInvariant

/-- The 64-bit integer of this value, if there is one. -/
def checkedInt64 (i : Int) : Option Int64 :=
  if -9223372036854775808 ≤ i ∧ i < 9223372036854775808 then some (Int64.ofInt i) else none

theorem checkedInt64_toInt (i : Int64) : checkedInt64 i.toInt = some i := by
  have hle := Int64.le_toInt i
  have hlt := Int64.toInt_lt i
  rw [checkedInt64, if_pos (by omega), Int64.ofInt_toInt]

theorem toInt_of_checkedInt64 {i : Int} {j : Int64} (h : checkedInt64 i = some j) : j.toInt = i := by
  rw [checkedInt64] at h
  split at h
  · next hrange =>
    cases h
    exact Int64.toInt_ofInt_of_le (by omega) (by omega)
  · cases h

end LoopInvariant
