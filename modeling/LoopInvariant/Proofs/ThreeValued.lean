import LoopInvariant.Proofs.Evaluation
/-!
# Simplification in three-valued logic

A truth value is true, false or unknown, and a term is unknown where it depends on an unknown
variable, is ill-sorted or leaves the 64-bit range. A junction folds the three-valued connective on
two operands, in which an operand that decides wins over an unknown one and an unknown one over the
neutral value. The simplifying constructors build terms of the same three-valued truth as the plain
ones, so that no unknown operand is lost on the way and none becomes definite.
-/

namespace LoopInvariant

namespace Junction

/-- The three-valued connective on two operands. -/
def combine (op : Junction) : Option Bool → Option Bool → Option Bool
  | some b, c => if b = op.absorbing then some b else c
  | none, c => if c = some op.absorbing then c else none

variable (op : Junction)

theorem combine_neutral (b : Option Bool) : op.combine (some !op.absorbing) b = b := by
  cases op <;> rfl

theorem combine_absorbing (b : Option Bool) :
    op.combine (some op.absorbing) b = some op.absorbing :=
  if_pos rfl

theorem join_cons (b : Option Bool) (bs : List (Option Bool)) :
    op.join (b :: bs) = op.combine b (op.join bs) := by
  by_cases habs : b = some op.absorbing
  · rw [habs, op.join_of_mem List.mem_cons_self, combine_absorbing]
  · by_cases hneutral : b = some !op.absorbing
    · -- a neutral operand is neither the one that decides nor an unknown one
      rw [hneutral, combine_neutral]
      refine op.join_congr ?_ fun _ => ?_
      · simp
      · simp
    · obtain rfl : b = none := by
        cases b with
        | none => rfl
        | some b => cases op <;> cases b <;> simp_all [absorbing]
      rw [combine]
      split
      · next hrest =>
        rw [hrest]
        exact op.join_of_mem (List.mem_cons_of_mem _ (op.join_eq_absorbing_iff.1 hrest))
      · next hrest =>
        rw [op.join_eq_none_iff]
        rw [op.join_eq_absorbing_iff] at hrest
        simp [hrest]

theorem join_eq_foldr (bs : List (Option Bool)) :
    op.join bs = bs.foldr op.combine (some !op.absorbing) := by
  induction bs with
  | nil => rfl
  | cons b bs ih => rw [join_cons, ih, List.foldr_cons]

end Junction

namespace Term

/-- Simplification changes no truth value, whatever is unknown, ill-sorted or out of range. A
conjunction and a disjunction are worth the plain ones, which fold the three-valued connectives over
their operands, a complement is worth the opposite, and a term is worth the three-valued conjunction
of its conjuncts. -/
theorem simplification_keeps_truth (env : Env) (t : Term) (ts : List Term) :
    (conj ts).evalBool env = (nary .and ts).evalBool env ∧
      (disj ts).evalBool env = (nary .or ts).evalBool env ∧
      (∀ op, (nary op ts).evalBool env =
        (ts.map (evalBool env)).foldr op.combine (some !op.absorbing)) ∧
      t.complement.evalBool env = (t.evalBool env).map (fun b => !b) ∧
      t.evalBool env = (t.conjuncts.map (evalBool env)).foldr Junction.and.combine (some true) := by
  have hjunction : ∀ op, (junction op ts).evalBool env = (nary op ts).evalBool env := fun op => by
    rw [evalBool_junction, evalBool_nary]
  refine ⟨hjunction .and, hjunction .or, fun op => ?_, evalBool_complement env t, ?_⟩
  · rw [evalBool_nary, Junction.join_eq_foldr]
  · rw [evalBool_eq_join_conjuncts, Junction.join_eq_foldr]
    rfl

/-- An unknown operand stays one beside a dropped `true` and an opened conjunction, and an
ill-sorted one does not hide that another is false. -/
example :
    (conj [lit true, nary .and [int 3, var "b"], var "b"]).evalBool (fun _ => none) = none ∧
      (conj [lit true, nary .and [int 3, var "b"], var "b"]).evalBool
        (fun _ => some (.bool false)) = some false := by
  decide

end Term

end LoopInvariant
