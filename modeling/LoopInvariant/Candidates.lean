import LoopInvariant.Automaton
/-!
# Candidate invariants

A candidate gives a formula in disjunctive normal form to each loop head, with a default for those
that it does not name.
-/

namespace LoopInvariant

/-- A disjunction of conjunctions: `[[]]` is true and `[]` is false. -/
abbrev Dnf := List (List Term)

/-- The term of a formula in disjunctive normal form. -/
def Dnf.toTerm (d : Dnf) : Term := .disj (d.map Term.conj)

/-- A formula for each loop head. -/
structure Candidates where
  sites : SortedMap Loc Dnf
  fallback : Dnf
  deriving DecidableEq

namespace Candidates

/-- The same formula everywhere. -/
def const (d : Dnf) : Candidates := ⟨∅, d⟩

/-- True everywhere. -/
def top : Candidates := const [[]]

/-- False everywhere. -/
def bottom : Candidates := const []

instance : Inhabited Candidates := ⟨top⟩

variable (c : Candidates)

/-- Set the formula of a site. -/
def insert (site : Loc) (d : Dnf) : Candidates := { c with sites := c.sites.insert site d }

/-- The formula of a site, with a default of the caller's. -/
def dnfOr (instead : Dnf) (site : Loc) : Dnf := (c.sites.get? site).getD instead

/-- The formula of a site. -/
def dnf (site : Loc) : Dnf := c.dnfOr c.fallback site

/-- The formula of a site as a term. -/
def formula (site : Loc) : Term := (c.dnf site).toTerm

/-- Conjoin an atom onto every disjunct of every formula. -/
def guard (atom : Term) : Candidates :=
  let add (d : Dnf) : Dnf := d.map (· ++ [atom])
  { sites := c.sites.mapValues add, fallback := add c.fallback }

/-- The disjunction at each site. -/
def or (d : Candidates) : Candidates :=
  let keys := (SortedSet.ofList (c.sites.keys ++ d.sites.keys)).toList
  { sites := SortedMap.ofList (keys.map fun l => (l, c.dnf l ++ d.dnf l))
    fallback := c.fallback ++ d.fallback }

/-- The formulas of `inside` at the given sites and those of `outside` elsewhere. -/
def select (sites : List Loc) (inside outside : Candidates) : Candidates :=
  sites.foldl (fun c l => c.insert l (inside.dnf l))
    { outside with sites := outside.sites.filter fun l _ => l ∉ sites }

/-- The candidates as they are written, one site on a line, given the names of the sites. -/
def print (name : Loc → String) : String :=
  "\n".intercalate
    (c.sites.entries.map (fun (l, d) => name l ++ ": " ++ d.toTerm.print)
      ++ ["default: " ++ c.fallback.toTerm.print])

end Candidates

end LoopInvariant
