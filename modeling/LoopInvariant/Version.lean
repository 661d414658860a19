import LoopInvariant.Decimal
import LoopInvariant.Term
/-!
# Versioned names

Every variable `x` is split into versions `x@0`, `x@1`, … and an `Indexing` records the current one.
A name is split at its last `@`, so a versioned name always splits back into its parts.
-/

namespace LoopInvariant

/-- The name of version `k` of a variable. -/
def versioned (x : String) (k : Nat) : String := x ++ "@" ++ String.ofList (Decimal.write k)

/-- The characters before and after the last `@`. -/
def splitAtLast (cs : List Char) : Option (List Char × List Char) :=
  match cs.reverse.dropWhile (· ≠ '@') with
  | [] => none
  | _ :: before => some (before.reverse, (cs.reverse.takeWhile (· ≠ '@')).reverse)

/-- The variable and the version of a versioned name. Versions are below `2 ^ 64`. -/
def unversioned? (name : String) : Option (String × Nat) :=
  match splitAtLast name.toList with
  | none => none
  | some (base, digits) => (Decimal.readUnsigned? digits).map fun k => (String.ofList base, k)

/-- The current version of each variable; a variable left out is at version 0. -/
structure Indexing where
  versions : SortedMap String Nat
  deriving DecidableEq

namespace Indexing

/-- Every variable at version 0. -/
def initial : Indexing := ⟨∅⟩

instance : Inhabited Indexing := ⟨initial⟩

/-- The version of a variable. -/
def get (ix : Indexing) (x : String) : Nat := (ix.versions.get? x).getD 0

/-- Move a variable to its next version. -/
def bump (ix : Indexing) (x : String) : Indexing := ⟨ix.versions.insert x (ix.get x + 1)⟩

/-- The current versioned name of a variable. -/
def name (ix : Indexing) (x : String) : String := versioned x (ix.get x)

/-- Rename every variable of a term to its current version. -/
def instantiate (ix : Indexing) (t : Term) : Term := t.rename ix.name

/-- The variables past version 0, in order. -/
def changed (ix : Indexing) : List (String × Nat) := ix.versions.entries.filter fun e => 0 < e.2

end Indexing

end LoopInvariant
