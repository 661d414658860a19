import LoopInvariant.Automaton
import LoopInvariant.Value
/-!
# Datapoints

An observation at a loop head. Its valuation may be partial, and a variable that it leaves out
stands for every value, so that a datapoint is a set of states.
-/

namespace LoopInvariant

open Std

/-- A set of states at a site, given by the values of some variables. -/
structure Datapoint where
  site : Loc
  valuation : Valuation
  deriving DecidableEq

namespace Datapoint

instance : Inhabited Datapoint := ⟨⟨0, ∅⟩⟩

/-- Datapoints are compared by site, then by valuation. -/
def compareParts : Datapoint → Datapoint → Ordering :=
  compareLex (compareOn site) (compareOn valuation)

instance : Ord Datapoint := ⟨compareParts⟩

instance : TransOrd Datapoint :=
  inferInstanceAs (TransCmp (compareLex (compareOn site) (compareOn valuation)))

instance : LawfulEqOrd Datapoint where
  compare_self {a} := by
    change compareParts a a = .eq
    simp [compareParts, compareLex, compareOn]
  eq_of_compare {a b} h := by
    change compareParts a b = .eq at h
    simp only [compareParts, compareLex, compareOn, Ordering.then_eq_eq] at h
    have hsite : a.site = b.site := LawfulEqCmp.eq_of_compare h.1
    have hvaluation : a.valuation = b.valuation := LawfulEqCmp.eq_of_compare h.2
    cases a; cases b; simp_all

/-- Whether every state of one datapoint is a state of the other: it agrees with every value that
the other fixes. -/
def subset (d e : Datapoint) : Bool :=
  d.site = e.site && e.valuation.entries.all fun (x, a) => d.valuation.get? x = some a

theorem subset_iff {d e : Datapoint} :
    d.subset e = true ↔
      d.site = e.site ∧ ∀ x v, e.valuation.get? x = some v → d.valuation.get? x = some v := by
  simp only [subset, Bool.and_eq_true, decide_eq_true_eq, List.all_eq_true, Prod.forall,
    SortedMap.mem_entries_iff]

theorem eq_of_get? {d e : Datapoint} (hsite : d.site = e.site)
    (hvalues : ∀ x, d.valuation.get? x = e.valuation.get? x) : d = e := by
  have hvaluation : d.valuation = e.valuation := SortedMap.ext hvalues
  cases d
  cases e
  simp_all

theorem subset_antisymm {d e : Datapoint} (hde : d.subset e = true) (hed : e.subset d = true) :
    d = e := by
  obtain ⟨hsite, hvalues⟩ := subset_iff.1 hde
  obtain ⟨-, hvalues'⟩ := subset_iff.1 hed
  apply eq_of_get? hsite
  intro x
  ext v
  exact ⟨hvalues' x v, hvalues x v⟩

/-- Whether two datapoints have no state in common: they disagree on a variable. -/
def disjoint (d e : Datapoint) : Bool :=
  d.site ≠ e.site ||
    d.valuation.entries.any fun (x, a) => (e.valuation.get? x).any fun b => b ≠ a

/-- The states that two datapoints have in common. -/
def meet? (d e : Datapoint) : Option Datapoint :=
  if d.disjoint e then none
  else
    some { d with
      valuation := e.valuation.entries.foldl (fun v (x, a) => v.insertIfNew x a) d.valuation }

/-- A datapoint as it is written, with the name of its site. -/
def print (name : Loc → String) (d : Datapoint) : String := name d.site ++ d.valuation.print

end Datapoint

/-- Where a constraint comes from. -/
inductive Origin where
  /-- A counterexample to the clause with this number. -/
  | clause (i : Nat)
  /-- A guess of a learner. -/
  | assumed
  deriving DecidableEq

/-- If all sources lie inside the invariants, so does the target. Without a target the sources do
not all lie inside. -/
structure Constraint where
  sources : List Datapoint
  target : Option Datapoint
  origin : Origin
  deriving DecidableEq

namespace Constraint

/-- A datapoint is guessed to lie inside. -/
def assumeTrue (d : Datapoint) : Constraint := ⟨[], some d, .assumed⟩

/-- A datapoint is guessed not to lie inside. -/
def assumeFalse (d : Datapoint) : Constraint := ⟨[d], none, .assumed⟩

/-- The datapoints that a constraint mentions. -/
def datapoints (c : Constraint) : List Datapoint := c.sources ++ c.target.toList

/-- Whether a constraint is a guess. -/
def isAssumed (c : Constraint) : Bool := c.origin = .assumed

/-- A constraint as it is written. -/
def print (name : Loc → String) (c : Constraint) : String :=
  let origin := match c.origin with
    | .clause i => "[clause " ++ toString i ++ "] "
    | .assumed => "[assumed] "
  let sources :=
    if c.sources.isEmpty then "true" else " & ".intercalate (c.sources.map (·.print name))
  let target := match c.target with
    | some t => t.print name
    | none => "false"
  origin ++ sources ++ " => " ++ target

end Constraint

end LoopInvariant
