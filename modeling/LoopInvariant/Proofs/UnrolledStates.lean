import LoopInvariant.Proofs.ClauseChain
/-!
# Unrolled statements as a relation between states

Unrolled from any indexing, statements say of a valuation exactly that they lead from the state it
holds at the indexing before to the one at the indexing after. A valuation may leave names open. It
may know every variable at both indexings, or finitely many among which are all that the statements
mention.
-/

namespace LoopInvariant

theorem Indexing.name_injective (ix : Indexing) : Function.Injective ix.name := by
  intro x y heq
  exact (versioned_inj.1 heq).1

/-- The state in which every open variable has one and the same value. -/
def Env.closed (env : Env) : State := fun x => (env x).getD default

theorem Env.closed_eq {env : Env} {x : String} {a : Value} (h : env x = some a) :
    env.closed x = a := by
  rw [closed, h, Option.getD_some]

theorem Env.extends_closed (env : Env) : env.closed.env.Extends env := by
  intro x a hx
  rw [State.env, env.closed_eq hx]

variable {ix : Indexing} {stmts : List Statement}

/-- What is true where names are open stays true, so it comes from an execution. -/
theorem executes_of_unroll {env : Env} (h : (unroll ix stmts).1.evalBool env = some true) :
    ∃ trace, Executes stmts (ix.view env.closed) trace ((unroll ix stmts).2.view env.closed) := by
  apply executes_of_effects
  apply evalBool_unroll.1
  exact Term.evalBool_mono env.extends_closed h

theorem exists_unroll {s s' : State} {trace : List State} (h : Executes stmts s trace s')
    (ix : Indexing) :
    ∃ w : State, (unroll ix stmts).1.evalBool w.env = some true ∧ ix.view w = s ∧
      (unroll ix stmts).2.view w = s' := by
  -- the versions before the current ones do not matter
  have hview : ix.view (Function.extend ix.name s fun _ => default) = s := by
    funext x
    exact ix.name_injective.extend_apply s _ x
  obtain ⟨w, hprolongs, htrue, hlast⟩ := exists_effects h hview
  exact ⟨w, evalBool_unroll.2 htrue, hprolongs.view_eq.trans hview, hlast⟩

/-- Finitely many of the names matter. -/
theorem exists_finite_unroll {s s' : State} {trace : List State} (h : Executes stmts s trace s')
    (ix : Indexing) (names : List String) :
    ∃ v : Valuation, (unroll ix stmts).1.evalBool v.get? = some true ∧
      ∀ x ∈ names, v.get? (ix.name x) = some (s x) ∧
        v.get? ((unroll ix stmts).2.name x) = some (s' x) := by
  obtain ⟨w, htrue, rfl, rfl⟩ := exists_unroll h ix
  let known := (unroll ix stmts).1.occurrences ++ names.map ix.name ++
    names.map (unroll ix stmts).2.name
  have hstart : ∀ x ∈ names, ix.name x ∈ known := fun x hx =>
    List.mem_append_left _ (List.mem_append_right _ (List.mem_map_of_mem hx))
  have hlast : ∀ x ∈ names, (unroll ix stmts).2.name x ∈ known := fun x hx =>
    List.mem_append_right _ (List.mem_map_of_mem hx)
  refine ⟨w.restrict known, ?_, fun x hx => ⟨?_, ?_⟩⟩
  · rw [← htrue]
    apply w.evalBool_restrict
    exact fun n hn => List.mem_append_left _ (List.mem_append_left _ hn)
  · rw [State.get?_restrict, if_pos (hstart x hx)]
    rfl
  · rw [State.get?_restrict, if_pos (hlast x hx)]
    rfl

/-- Unrolling is exact. Statements lead from one state to another if and only if some valuation makes
the unrolled statements true and holds these states at the indexings before and after. The same is
true of finite valuations and any variables among which are all those mentioned. -/
theorem executes_iff_unroll (ix : Indexing) (stmts : List Statement) (s s' : State) :
    ((∃ trace, Executes stmts s trace s') ↔
      ∃ env : Env, (unroll ix stmts).1.evalBool env = some true ∧
        (∀ x, env (ix.name x) = some (s x)) ∧
        ∀ x, env ((unroll ix stmts).2.name x) = some (s' x)) ∧
    ∀ names : List String, (∀ st ∈ stmts, ∀ x ∈ st.mentions, x ∈ names) →
      ((∃ trace u, Executes stmts s trace u ∧ ∀ x ∈ names, u x = s' x) ↔
        ∃ v : Valuation, (unroll ix stmts).1.evalBool v.get? = some true ∧
          ∀ x ∈ names, v.get? (ix.name x) = some (s x) ∧
            v.get? ((unroll ix stmts).2.name x) = some (s' x)) := by
  refine ⟨⟨?_, ?_⟩, fun names hmentions => ⟨?_, ?_⟩⟩
  · intro h
    obtain ⟨trace, hstmts⟩ := h
    obtain ⟨w, htrue, rfl, rfl⟩ := exists_unroll hstmts ix
    exact ⟨w.env, htrue, fun x => rfl, fun x => rfl⟩
  · intro h
    obtain ⟨env, htrue, hstart, hlast⟩ := h
    obtain ⟨trace, hstmts⟩ := executes_of_unroll htrue
    have hs : ix.view env.closed = s := funext fun x => Env.closed_eq (hstart x)
    have hs' : (unroll ix stmts).2.view env.closed = s' := funext fun x => Env.closed_eq (hlast x)
    rw [hs, hs'] at hstmts
    exact ⟨trace, hstmts⟩
  · intro h
    obtain ⟨trace, u, hstmts, hu⟩ := h
    obtain ⟨v, htrue, hvalues⟩ := exists_finite_unroll hstmts ix names
    exact ⟨v, htrue, fun x hx => ⟨(hvalues x hx).1, hu x hx ▸ (hvalues x hx).2⟩⟩
  · intro h
    obtain ⟨v, htrue, hvalues⟩ := h
    obtain ⟨trace, hstmts⟩ := executes_of_unroll htrue
    have hagree : ∀ x ∈ names, ix.view (Env.closed v.get?) x = s x := fun x hx =>
      Env.closed_eq (hvalues x hx).1
    obtain ⟨trace', u, hstmts', hu⟩ := hstmts.frame hmentions hagree
    refine ⟨trace', u, hstmts', fun x hx => ?_⟩
    rw [← hu x hx]
    exact Env.closed_eq (hvalues x hx).2

def sumAndGuess : List Statement :=
  [.assign "x" (.arith .add (.var "x") (.var "y")), .havoc "y",
    .assume (.rel .leq (.var "y") (.var "x"))]

/-- From `x = 1` and `y = 2` the guess 3 passes. The versions start where `x` was written once. -/
theorem sumAndGuess_unrolled :
    ∃ v : Valuation,
      (unroll (Indexing.initial.bump "x") sumAndGuess).1.evalBool v.get? = some true ∧
        v.get? "x@1" = some (.int 1) ∧ v.get? "y@0" = some (.int 2) ∧
        v.get? "x@2" = some (.int 3) ∧ v.get? "y@1" = some (.int 3) := by
  let s : State := fun x => if x = "x" then .int 1 else .int 2
  have hassign : (Term.arith .add (.var "x") (.var "y")).eval s.env = some (.int 3) := by
    decide +kernel
  have hassume : (Term.rel .leq (.var "y") (.var "x")).evalBool
      (State.env (Function.update (Function.update s "x" (.int 3)) "y" (.int 3))) = some true := by
    decide +kernel
  have hstmts : Executes sumAndGuess s _ _ :=
    .cons (.assign hassign) (.cons (.havoc (.int 3)) (.cons (.assume hassume) (.nil _)))
  obtain ⟨v, htrue, hvalues⟩ := ((executes_iff_unroll (Indexing.initial.bump "x") sumAndGuess s
    _).2 ["x", "y"] (by decide)).1 ⟨_, _, hstmts, fun x _ => rfl⟩
  obtain ⟨hx, hx'⟩ := hvalues "x" (by decide)
  obtain ⟨hy, hy'⟩ := hvalues "y" (by decide)
  exact ⟨v, htrue, hx, hy, hx', hy'⟩

end LoopInvariant
