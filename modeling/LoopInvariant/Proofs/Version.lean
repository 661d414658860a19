import LoopInvariant.Signature
import LoopInvariant.Proofs.SortedMap
/-!
# Versioned names

A versioned name ends in the only numeral after its last `@`, so that it splits back into the
variable and the version, and different variables or versions never share a name. Versions are read
back up to 64 bits; beyond, a name has no sort.
-/

namespace LoopInvariant

theorem at_not_mem_write (k : Nat) : '@' ∉ Decimal.write k := fun hmem =>
  absurd (Nat.isDigit_of_mem_toDigits (by decide) (by decide) hmem) (by decide)

theorem toList_versioned (x : String) (k : Nat) :
    (versioned x k).toList = x.toList ++ '@' :: Decimal.write k := by
  simp [versioned]

theorem splitAtLast_append {cs ds : List Char} (hds : '@' ∉ ds) :
    splitAtLast (cs ++ '@' :: ds) = some (cs, ds) := by
  have hne : ∀ c ∈ ds.reverse, (decide (c ≠ '@')) = true := by
    intro c hc
    exact decide_eq_true fun heq => hds (heq ▸ List.mem_reverse.1 hc)
  have hreverse : (cs ++ '@' :: ds).reverse = ds.reverse ++ '@' :: cs.reverse := by simp
  rw [splitAtLast, hreverse, List.dropWhile_append_of_pos hne, List.takeWhile_append_of_pos hne]
  simp

theorem splitAtLast_versioned (x : String) (k : Nat) :
    splitAtLast (versioned x k).toList = some (x.toList, Decimal.write k) := by
  rw [toList_versioned, splitAtLast_append (at_not_mem_write k)]

theorem versioned_inj {x y : String} {j k : Nat} : versioned x j = versioned y k ↔ x = y ∧ j = k := by
  constructor
  · intro h
    have hsplit := splitAtLast_versioned x j
    rw [h, splitAtLast_versioned y k] at hsplit
    simp only [Option.some.injEq, Prod.mk.injEq] at hsplit
    refine ⟨String.toList_inj.1 hsplit.1.symm, ?_⟩
    have hread := Decimal.read?_write j
    rw [← hsplit.2, Decimal.read?_write] at hread
    exact (Option.some.inj hread).symm
  · rintro ⟨rfl, rfl⟩
    rfl

theorem readUnsigned?_write (k : Nat) :
    Decimal.readUnsigned? (Decimal.write k) = if k < 18446744073709551616 then some k else none := by
  have hplus : ∀ cs, Decimal.write k ≠ '+' :: cs := by
    intro cs hcs
    have hmem : '+' ∈ Decimal.write k := hcs ▸ List.mem_cons_self
    exact absurd (Nat.isDigit_of_mem_toDigits (by decide) (by decide) hmem) (by decide)
  have hword : Decimal.readUnsigned? (Decimal.write k) = Decimal.readWord? (Decimal.write k) := by
    unfold Decimal.readUnsigned?
    split
    · next cs hcs => exact absurd hcs (hplus cs)
    · rfl
  rw [hword, Decimal.readWord?, Decimal.read?_write, Option.filter_some]
  simp

theorem unversioned?_versioned (x : String) (k : Nat) :
    unversioned? (versioned x k) = if k < 18446744073709551616 then some (x, k) else none := by
  rw [unversioned?, splitAtLast_versioned]
  simp only [readUnsigned?_write]
  split <;> simp

theorem get?_of_sortOf?_versioned {s : Signature} {x : String} {k : Nat} {sort : VarSort}
    (hplain : ∀ y, (s.get? y).isSome → '@' ∉ y.toList)
    (hsort : s.sortOf? (versioned x k) = some sort) : s.get? x = some sort := by
  rw [Signature.sortOf?, unversioned?_versioned] at hsort
  by_cases hk : k < 18446744073709551616
  · simpa [hk] using hsort
  · simp only [hk, if_false] at hsort
    have hat : '@' ∉ (versioned x k).toList := hplain _ (by rw [hsort]; rfl)
    rw [toList_versioned] at hat
    simp at hat

namespace Indexing

theorem get_bump_self (ix : Indexing) (x : String) : (ix.bump x).get x = ix.get x + 1 := by
  simp [bump, get, SortedMap.get?_insert_self]

theorem get_bump_of_ne (ix : Indexing) {x y : String} (hne : y ≠ x) :
    (ix.bump x).get y = ix.get y := by
  simp [bump, get, SortedMap.get?_insert_of_ne _ _ hne]

end Indexing

end LoopInvariant
