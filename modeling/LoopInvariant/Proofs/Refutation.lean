import LoopInvariant.Proofs.Insertion
import LoopInvariant.Proofs.LeastLabels
/-!
# Contradictions come with derivations

Every change gives only labels that are justified, so all labels keep their reasons. Where an
operation fails, the constraints that it reports derive the contradiction.
-/

namespace LoopInvariant

namespace Knowledge

variable {k k' : Knowledge} {c : Constraint} {e : Contradiction}

theorem Reasoned.change (h : k.Reasoned) (hchange : k.Change k') : k'.Reasoned := by
  cases hchange with
  | point => exact h.congr rfl rfl
  | label hl _ hset => exact h.setLabel hl hset

theorem Reasoned.changes (h : k.Reasoned) (hchanges : k.Changes k') : k'.Reasoned := by
  induction hchanges with
  | refl => exact h
  | tail _ hchange ih => exact ih.change hchange

/-- Where labels have reasons, a clash is derived. -/
theorem Clash.derivation (h : k.Clash e) (hk : k.Reasoned) (hnodup : k.constraints.toList.Nodup) :
    Derivation (· ∈ k.constraints) e.witness := by
  cases h with
  | reached ht htrue hf hfalse => exact (refutes_of_true hk ht htrue hf hfalse).derivation hnodup
  | excluded hreason hfalse hsub he ht htrue =>
    exact (refutes_of_false hk he hsub hfalse hreason ht htrue).derivation hnodup
  | fired hc hnone htrue => exact (refutes_of_sources hk hc hnone htrue).derivation hnodup

theorem Reachable.reasoned (h : k.Reachable) : k.Reasoned := by
  induction h with
  | empty =>
    refine ⟨fun d l hl => ?_, ⟨fun d => ⟨d, fun e he => ?_⟩⟩⟩
    · cases hl
    · obtain ⟨l, hl, -⟩ := he
      cases hl
  | insert _ hinsert ih =>
    rcases changes_of_insert hinsert with rfl | ⟨-, hchanges⟩
    · exact ih
    · exact (ih.push _).changes hchanges
  | simplify _ ih => exact ih.congr rfl rfl

theorem Reachable.derivation_insert (h : k.Reachable) (hfails : k.insert c = .error e) :
    Derivation (fun c' => c' ∈ k.constraints ∨ c' = c) e.witness := by
  obtain ⟨hnew, k', hchanges, hclash⟩ := clash_of_insert hfails
  have hconstraints := hchanges.grows.constraints_eq
  have hderivation := hclash.derivation ((h.reasoned.push c).changes hchanges)
    (hconstraints ▸ nodup_push h.nodup hnew)
  refine hderivation.imp fun c' hc' => ?_
  rw [hconstraints] at hc'
  exact Array.mem_push.1 hc'

theorem Reachable.exists_insert_of_assume {guesses : List Constraint} (h : k.Reachable)
    (hfails : k.assume guesses = .error e) :
    ∃ (k' : Knowledge) (c : Constraint), k'.Reachable ∧
      (∀ c' ∈ k'.constraints, c' ∈ k.constraints ∨ c' ∈ guesses) ∧
      c ∈ guesses ∧ k'.insert c = .error e := by
  induction guesses generalizing k with
  | nil => cases hfails
  | cons c guesses ih =>
    rw [Knowledge.assume] at hfails
    cases hinsert : k.insert c with
    | error e' =>
      rw [hinsert] at hfails
      cases hfails
      exact ⟨k, c, h, fun c' => .inl, List.mem_cons_self, hinsert⟩
    | ok r =>
      rw [hinsert] at hfails
      obtain ⟨k', c', hk', hmem, hc', hfails'⟩ := ih (h.insert hinsert) hfails
      refine ⟨k', c', hk', fun x hx => ?_, List.mem_cons_of_mem c hc', hfails'⟩
      have hx := hmem x hx
      rwa [(h.saturated.insert hinsert).2, or_assoc, ← List.mem_cons] at hx

theorem Reachable.derivation_assume {guesses : List Constraint} (h : k.Reachable)
    (hfails : k.assume guesses = .error e) :
    Derivation (fun c => c ∈ k.constraints ∨ c ∈ guesses) e.witness := by
  obtain ⟨k', c, hk', hmem, hc, hinsert⟩ := h.exists_insert_of_assume hfails
  refine (hk'.derivation_insert hinsert).imp fun c' hc' => ?_
  rcases hc' with hc' | rfl
  · exact hmem c' hc'
  · exact .inr hc

end Knowledge

/-- Every contradiction that is reported is derived. Its constraints are among those known and the
new ones, none occurs twice, every source of each lies inside the target of one before it, and the
last, and only that, has no target. -/
theorem contradiction_is_derived {k : Knowledge} (hk : k.Reachable) :
    (∀ c e, k.insert c = .error e →
      Derivation (fun c' => c' ∈ k.constraints ∨ c' = c) e.witness) ∧
    (∀ ds e, k.withTrue ds = .error e →
      Derivation (fun c => c ∈ k.constraints ∨ c ∈ ds.map .assumeTrue) e.witness) ∧
    ∀ ds e, k.withFalse ds = .error e →
      Derivation (fun c => c ∈ k.constraints ∨ c ∈ ds.map .assumeFalse) e.witness :=
  ⟨fun _ _ => hk.derivation_insert, fun _ _ => hk.derivation_assume,
    fun _ _ => hk.derivation_assume⟩

def leadingToError : Except Contradiction Nat × Knowledge :=
  Knowledge.insertAll {} [⟨[⟨0, .ofList [("x", .int 2)]⟩], none, .clause 2⟩,
    ⟨[⟨0, .ofList [("x", .int 1), ("y", .int 3)]⟩], some ⟨0, .ofList [("x", .int 2)]⟩, .clause 1⟩]

/-- Once the other state is reached, the three constraints are put in the order of the error. -/
theorem leadingToError_derivation :
    ∃ e, leadingToError.2.insert ⟨[], some ⟨0, .ofList [("x", .int 1)]⟩, .clause 0⟩ = .error e ∧
      e.witness.map (·.origin) = [.clause 0, .clause 1, .clause 2] ∧
      Derivation (fun c => c ∈ leadingToError.2.constraints ∨
        c = ⟨[], some ⟨0, .ofList [("x", .int 1)]⟩, .clause 0⟩) e.witness := by
  have hadded : leadingToError.1.toOption = some 2 := by decide +kernel
  have hk : leadingToError.2.Reachable :=
    (Knowledge.Reachable.empty.insertAll (Prod.ext (toOption_eq_some_iff.1 hadded) rfl)).1
  have hfails : ((leadingToError.2.insert ⟨[], some ⟨0, .ofList [("x", .int 1)]⟩, .clause 0⟩).map
      (·.1)).mapError (·.witness.map (·.origin)) =
        .error [.clause 0, .clause 1, .clause 2] := by decide +kernel
  cases hinsert : leadingToError.2.insert ⟨[], some ⟨0, .ofList [("x", .int 1)]⟩, .clause 0⟩ with
  | ok r =>
    rw [hinsert] at hfails
    cases hfails
  | error e =>
    rw [hinsert] at hfails
    exact ⟨e, rfl, Except.error.inj hfails, (contradiction_is_derived hk).1 _ e hinsert⟩

end LoopInvariant
