import LoopInvariant.ClauseSystem
import LoopInvariant.Proofs.Execution
import LoopInvariant.Proofs.Version
/-!
# What unrolled statements say

A valuation of all versioned names holds a state for each indexing: every variable at its current
version. Unrolled statements are true in it exactly when the statements lead from the state before
to the state after. The versions in between are the values the variables take on the way.
-/

namespace LoopInvariant

namespace Indexing

/-- The state that a valuation of versioned names holds at an indexing. -/
def view (ix : Indexing) (w : State) : State := fun x => w (ix.name x)

theorem eval_instantiate (ix : Indexing) (w : State) (t : Term) :
    (ix.instantiate t).eval w.env = t.eval (ix.view w).env := by
  rw [instantiate, Term.eval_rename]
  rfl

theorem evalBool_instantiate (ix : Indexing) (w : State) (t : Term) :
    (ix.instantiate t).evalBool w.env = t.evalBool (ix.view w).env := by
  rw [Term.evalBool, eval_instantiate, Term.evalBool]

theorem view_bump (ix : Indexing) (w : State) (x : String) :
    (ix.bump x).view w = Function.update (ix.view w) x (w (versioned x (ix.get x + 1))) := by
  funext y
  by_cases hy : y = x
  · subst hy
    rw [Function.update_self, view, name, get_bump_self]
  · rw [Function.update_of_ne hy, view, name, get_bump_of_ne ix hy]
    rfl

theorem get_le_get_bump (ix : Indexing) (x y : String) : ix.get y ≤ (ix.bump x).get y := by
  by_cases hy : y = x
  · rw [hy, get_bump_self]
    exact Nat.le_succ _
  · exact Nat.le_of_eq (get_bump_of_ne ix hy).symm

end Indexing

def AllTrue (env : Env) (ts : List Term) : Prop := ∀ t ∈ ts, t.evalBool env = some true

theorem AllTrue.cons {env : Env} {t : Term} {ts : List Term} (ht : t.evalBool env = some true)
    (hts : AllTrue env ts) : AllTrue env (t :: ts) :=
  List.forall_mem_cons.2 ⟨ht, hts⟩

theorem evalBool_unroll {env : Env} {ix : Indexing} {stmts : List Statement} :
    (unroll ix stmts).1.evalBool env = some true ↔ AllTrue env (effects ix stmts).1 := by
  rw [unroll]
  exact Term.evalBool_conj_eq_true_iff

private theorem evalBool_definition {w : State} {n : String} {t : Term} :
    (Term.equals (.var n) t).evalBool w.env = some true ↔ t.eval w.env = some (w n) := by
  rw [Term.equals, Term.evalBool_bin, Term.eval]
  cases t.eval w.env with
  | none => simp [State.env, Connective.join]
  | some v => simp [State.env, Connective.join, eq_comm]

theorem executes_of_effects {ix : Indexing} {stmts : List Statement} {w : State}
    (h : AllTrue w.env (effects ix stmts).1) :
    ∃ trace, Executes stmts (ix.view w) trace ((effects ix stmts).2.view w) := by
  induction stmts generalizing ix with
  | nil => exact ⟨[], .nil _⟩
  | cons st rest ih =>
    cases st with
    | assign x t =>
      obtain ⟨htrue, hrest⟩ := List.forall_mem_cons.1 h
      obtain ⟨trace, htrace⟩ := ih hrest
      rw [evalBool_definition, Indexing.eval_instantiate] at htrue
      rw [Indexing.view_bump] at htrace
      exact ⟨_, .cons (.assign htrue) htrace⟩
    | assume t =>
      obtain ⟨htrue, hrest⟩ := List.forall_mem_cons.1 h
      obtain ⟨trace, htrace⟩ := ih hrest
      rw [Indexing.evalBool_instantiate] at htrue
      exact ⟨_, .cons (.assume htrue) htrace⟩
    | havoc x =>
      obtain ⟨trace, htrace⟩ := ih h
      rw [Indexing.view_bump] at htrace
      exact ⟨_, .cons (.havoc _) htrace⟩

/-- A valuation that prolongs another past an indexing: it keeps the versions up to the current
ones, and whatever it changes is a value that the variable takes in the trace. -/
structure Prolongs (ix : Indexing) (trace : List State) (w₀ w : State) : Prop where
  kept : ∀ x k, k ≤ ix.get x → w (versioned x k) = w₀ (versioned x k)
  taken : ∀ n, w n = w₀ n ∨ ∃ u ∈ trace, ∃ x k, n = versioned x k ∧ w n = u x

namespace Prolongs

theorem refl (ix : Indexing) (trace : List State) (w : State) : Prolongs ix trace w w :=
  ⟨fun _ _ _ => rfl, fun _ => .inl rfl⟩

theorem weaken {ix : Indexing} {trace : List State} {w₀ w : State} (u : State)
    (h : Prolongs ix trace w₀ w) : Prolongs ix (u :: trace) w₀ w := by
  refine ⟨h.kept, fun n => ?_⟩
  rcases h.taken n with hn | ⟨u', hu', hn⟩
  · exact .inl hn
  · exact .inr ⟨u', List.mem_cons_of_mem _ hu', hn⟩

theorem view_eq {ix : Indexing} {trace : List State} {w₀ w : State}
    (h : Prolongs ix trace w₀ w) : ix.view w = ix.view w₀ :=
  funext fun x => h.kept x (ix.get x) (Nat.le_refl _)

theorem of_bump {ix : Indexing} {trace : List State} {w₀ w : State} {x : String} {v : Value}
    (h : Prolongs (ix.bump x) trace (Function.update w₀ (versioned x (ix.get x + 1)) v) w)
    (s : State) : Prolongs ix (Function.update s x v :: trace) w₀ w := by
  constructor
  · intro y k hk
    rw [h.kept y k (Nat.le_trans hk (ix.get_le_get_bump x y)), Function.update_of_ne]
    intro heq
    obtain ⟨rfl, rfl⟩ := versioned_inj.1 heq
    omega
  · intro n
    rcases h.taken n with hn | ⟨u', hu', hn⟩
    · by_cases hname : n = versioned x (ix.get x + 1)
      · rw [hname, Function.update_self] at hn
        rw [← Function.update_self x v s, ← hname] at hn
        exact .inr ⟨_, List.mem_cons_self, x, _, hname, hn⟩
      · rw [Function.update_of_ne hname] at hn
        exact .inl hn
    · exact .inr ⟨u', List.mem_cons_of_mem _ hu', hn⟩

end Prolongs

private theorem view_bump_update {ix : Indexing} {w₀ s : State} (hview : ix.view w₀ = s)
    (x : String) (v : Value) :
    (ix.bump x).view (Function.update w₀ (versioned x (ix.get x + 1)) v) = Function.update s x v := by
  rw [Indexing.view_bump, Function.update_self]
  congr 1
  rw [← hview]
  funext y
  rw [Indexing.view, Indexing.view, Function.update_of_ne]
  intro heq
  obtain ⟨rfl, hversion⟩ := versioned_inj.1 heq
  omega

/-- The effects of an execution are true in a valuation that prolongs a given one. -/
theorem exists_effects {stmts : List Statement} {s s' : State} {trace : List State}
    (h : Executes stmts s trace s') {ix : Indexing} {w₀ : State} (hview : ix.view w₀ = s) :
    ∃ w, Prolongs ix trace w₀ w ∧ AllTrue w.env (effects ix stmts).1 ∧
      (effects ix stmts).2.view w = s' := by
  induction h generalizing ix w₀ with
  | nil => exact ⟨w₀, .refl ix [] w₀, by simp [AllTrue, effects], hview⟩
  | @cons st _ s _ _ _ hstep _ ih =>
    cases hstep with
    | @assign x t _ v hvalue =>
      obtain ⟨w, hprolongs, htrue, hlast⟩ := ih (view_bump_update hview x v)
      have hkept := hprolongs.of_bump s
      refine ⟨w, hkept, .cons ?_ htrue, hlast⟩
      have hversion := hprolongs.kept x (ix.get x + 1) (Nat.le_of_eq (ix.get_bump_self x).symm)
      rw [evalBool_definition, Indexing.eval_instantiate, hkept.view_eq, hview, hvalue, hversion,
        Function.update_self]
    | assume htrue =>
      obtain ⟨w, hprolongs, hrest, hlast⟩ := ih hview
      refine ⟨w, hprolongs.weaken _, .cons ?_ hrest, hlast⟩
      rwa [Indexing.evalBool_instantiate, hprolongs.view_eq, hview]
    | @havoc x _ v =>
      obtain ⟨w, hprolongs, htrue, hlast⟩ := ih (view_bump_update hview x v)
      exact ⟨w, hprolongs.of_bump _, htrue, hlast⟩

/-! ## From a state

The valuation to start from gives every version of a variable the value it has at first. -/

def State.spread (s : State) : State := fun n => s (ClauseSystem.baseName n)

theorem baseName_versioned_zero (x : String) : ClauseSystem.baseName (versioned x 0) = x := by
  rw [ClauseSystem.baseName, unversioned?_versioned]
  rfl

theorem State.view_spread (s : State) : Indexing.initial.view s.spread = s :=
  funext fun x => congrArg s (baseName_versioned_zero x)

theorem Signature.sortOf?_eq (sig : Signature) (n : String) :
    sig.sortOf? n = sig.get? (ClauseSystem.baseName n) := by
  rw [sortOf?, ClauseSystem.baseName]
  cases unversioned? n <;> rfl

end LoopInvariant
