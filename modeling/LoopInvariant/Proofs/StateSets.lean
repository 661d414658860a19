import LoopInvariant.Proofs.Execution
import LoopInvariant.Proofs.Registration
import Mathlib.Data.Set.Basic
/-!
# Datapoints as sets of states

A datapoint stands for the states at its site that have its values, whatever the values of other
variables are. To lie in another datapoint, to have no state in common with it and to form the
common part are then what they are for sets.

What a datapoint leaves open is seen in two of its states: there is more than one value, and a state
may have the same value in all open variables.
-/

namespace LoopInvariant.Datapoint

variable {d e m : Datapoint}

def states (d : Datapoint) : Set (Loc × State) :=
  {p | p.1 = d.site ∧ ∀ x v, d.valuation.get? x = some v → p.2 x = v}

/-- The state of a datapoint in which all open variables have one value. -/
def fill (d : Datapoint) (a : Value) : State := fun x => (d.valuation.get? x).getD a

theorem fill_eq {x : String} {v : Value} (h : d.valuation.get? x = some v) (a : Value) :
    d.fill a x = v := by
  rw [fill, h, Option.getD_some]

theorem fill_mem_states (d : Datapoint) (a : Value) : (d.site, d.fill a) ∈ d.states :=
  ⟨rfl, fun _ _ hx => fill_eq hx a⟩

theorem subset_iff_states : d.subset e = true ↔ d.states ⊆ e.states := by
  rw [subset_iff]
  constructor
  · intro h p hp
    exact ⟨hp.1.trans h.1, fun x v hx => hp.2 x v (h.2 x v hx)⟩
  · intro h
    refine ⟨(h (d.fill_mem_states default)).1, fun x v hx => ?_⟩
    have hfill : ∀ a, d.fill a x = v := fun a => (h (d.fill_mem_states a)).2 x v hx
    cases hd : d.valuation.get? x with
    | some a => rw [← hfill a, fill_eq hd a]
    | none =>
      -- an open variable has both truth values
      simp only [fill, hd, Option.getD_none] at hfill
      cases (hfill (.bool true)).trans (hfill (.bool false)).symm

theorem states_of_meet? (h : d.meet? e = some m) : m.states = d.states ∩ e.states := by
  obtain ⟨hagree, hsite, hvalues⟩ := meet?_eq_some_iff.1 h
  obtain ⟨hsame, hboth⟩ := disjoint_eq_false_iff.1 hagree
  ext p
  constructor
  · intro hp
    refine ⟨⟨hp.1.trans hsite, fun x v hx => ?_⟩, hp.1.trans (hsite.trans hsame), fun x v hx => ?_⟩
    · apply hp.2
      rw [hvalues, hx, Option.some_or]
    · cases hd : d.valuation.get? x with
      | none =>
        apply hp.2
        rw [hvalues, hd, Option.none_or, hx]
      | some a =>
        apply hp.2
        rw [hvalues, hd, Option.some_or, hboth x a v hd hx]
  · intro hp
    refine ⟨hp.1.1.trans hsite.symm, fun x v hx => ?_⟩
    rw [hvalues, Option.or_eq_some_iff] at hx
    rcases hx with hx | ⟨-, hx⟩
    · exact hp.1.2 x v hx
    · exact hp.2.2 x v hx

theorem meet?_eq_none_iff : d.meet? e = none ↔ d.disjoint e = true := by
  rw [meet?]
  split
  · next h => simp [h]
  · next h => simp [h]

theorem disjoint_iff_states : d.disjoint e = true ↔ d.states ∩ e.states = ∅ := by
  constructor
  · intro h
    apply Set.eq_empty_of_forall_notMem
    intro p hp
    have hagree : d.disjoint e = false := disjoint_eq_false_iff.2
      ⟨hp.1.1.symm.trans hp.2.1, fun x a b ha hb => (hp.1.2 x a ha).symm.trans (hp.2.2 x b hb)⟩
    rw [h] at hagree
    cases hagree
  · intro h
    rw [← meet?_eq_none_iff]
    cases hm : d.meet? e with
    | none => rfl
    | some m =>
      have hmem := m.fill_mem_states default
      rw [states_of_meet? hm, h] at hmem
      exact hmem.elim

theorem inter_states (d e : Datapoint) : d.states ∩ e.states = (d.meet? e).elim ∅ states := by
  cases hm : d.meet? e with
  | none => exact disjoint_iff_states.1 (meet?_eq_none_iff.1 hm)
  | some m => exact (states_of_meet? hm).symm

/-- A datapoint lies in two others if and only if these have a common part and it lies in that. -/
theorem subset_meet?_iff {f : Datapoint} :
    f.subset d = true ∧ f.subset e = true ↔ ∃ m, d.meet? e = some m ∧ f.subset m = true := by
  simp only [subset_iff_states]
  rw [← Set.subset_inter_iff, inter_states]
  cases d.meet? e with
  | none => simpa using Set.nonempty_iff_ne_empty.1 ⟨_, f.fill_mem_states default⟩
  | some m => simp

/-- The operations on datapoints are those on sets of states, where no common part stands for the
empty set. So datapoints are partially ordered, and the common part of two is their greatest lower
bound, which is missing only if they have no lower bound at all. -/
theorem operations_denote_set_operations (d e : Datapoint) :
    (d.subset e = true ↔ d.states ⊆ e.states) ∧
      (d.disjoint e = true ↔ d.states ∩ e.states = ∅) ∧
      (d.meet? e = none ↔ d.disjoint e = true) ∧
      (d.meet? e).elim ∅ states = d.states ∩ e.states ∧
      IsPartialOrder Datapoint (fun f g => f.subset g = true) ∧
      ∀ f : Datapoint, f.subset d = true ∧ f.subset e = true ↔
        ∃ m, d.meet? e = some m ∧ f.subset m = true := by
  refine ⟨subset_iff_states, disjoint_iff_states, meet?_eq_none_iff, (inter_states d e).symm, ?_,
    fun f => subset_meet?_iff⟩
  exact {
    refl := subset_refl
    trans := fun _ _ _ => subset_trans
    antisymm := fun _ _ => subset_antisymm }

end LoopInvariant.Datapoint
