import LoopInvariant.Automaton
/-!
# Signatures

The sorts of the variables. A versioned name has the sort of its variable.
-/

namespace LoopInvariant

/-- The sorts of variables. -/
abbrev Signature := SortedMap String VarSort

namespace Signature

/-- The signature of declarations; of two with the same name the later counts. -/
def ofDecls (ds : List VarDecl) : Signature := SortedMap.ofList (ds.map fun d => (d.name, d.sort))

/-- The sort of a variable, versioned or not. -/
def sortOf? (s : Signature) (name : String) : Option VarSort :=
  match unversioned? name with
  | some (base, _) => s.get? base
  | none => s.get? name

end Signature

end LoopInvariant
