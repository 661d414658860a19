import LoopInvariant.Proofs.Description
import LoopInvariant.Proofs.Evaluation
import Mathlib.Logic.Function.Basic
/-!
# Executions

The concrete semantics of statements and automata, told apart from how they are unrolled. A state
gives every variable a value. An execution keeps a record of the states it passes after each
statement, so that what holds throughout an execution is a fact about a list.
-/

namespace LoopInvariant

abbrev State := String → Value

def State.env (s : State) : Env := fun x => some (s x)

/-- What a statement does to a state. An assignment without a value and an assumption that is not
true have no next state. -/
inductive Statement.Step : Statement → State → State → Prop where
  | assign {x : String} {t : Term} {s : State} {v : Value} (hvalue : t.eval s.env = some v) :
      Step (.assign x t) s (Function.update s x v)
  | assume {t : Term} {s : State} (htrue : t.evalBool s.env = some true) : Step (.assume t) s s
  | havoc {x : String} {s : State} (v : Value) : Step (.havoc x) s (Function.update s x v)

/-- Statements lead from one state to another. The list holds the state after each of them. -/
inductive Executes : List Statement → State → List State → State → Prop where
  | nil (s : State) : Executes [] s [] s
  | cons {st : Statement} {rest : List Statement} {s u s' : State} {trace : List State}
      (hstep : st.Step s u) (hrest : Executes rest u trace s') :
      Executes (st :: rest) s (u :: trace) s'

namespace Automaton

/-- An execution from the entry with an initial state to a location with a state, and the states
passed on the way. -/
inductive Run (a : Automaton) (s₀ : State) : List State → Loc → State → Prop where
  | start : Run a s₀ [] a.entry s₀
  | edge {trace trace' : List State} {l : Loc} {s s' : State} {e : Edge}
      (hrun : Run a s₀ trace l s) (hedge : e ∈ a.edges) (hsource : e.source = l)
      (hstmts : Executes e.stmts s trace' s') : Run a s₀ (trace ++ trace') e.target s'

/-- Some execution from the entry reaches the error location. -/
def ErrorReachable (a : Automaton) : Prop := ∃ s₀ trace s, a.Run s₀ trace a.error s

end Automaton

/-! ## Putting executions together -/

theorem Executes.append {xs ys : List Statement} {s u s' : State} {trace trace' : List State}
    (hxs : Executes xs s trace u) (hys : Executes ys u trace' s') :
    Executes (xs ++ ys) s (trace ++ trace') s' := by
  induction hxs with
  | nil => exact hys
  | cons hstep _ ih => exact .cons hstep (ih hys)

theorem Executes.of_append {xs ys : List Statement} {s s' : State} {trace : List State}
    (h : Executes (xs ++ ys) s trace s') :
    ∃ u trace₁ trace₂, trace = trace₁ ++ trace₂ ∧ Executes xs s trace₁ u ∧
      Executes ys u trace₂ s' := by
  induction xs generalizing s trace with
  | nil => exact ⟨s, [], trace, rfl, .nil s, h⟩
  | cons st xs ih =>
    cases h with
    | cons hstep hrest =>
      obtain ⟨u, trace₁, trace₂, rfl, hxs, hys⟩ := ih hrest
      exact ⟨u, _ :: trace₁, trace₂, rfl, .cons hstep hxs, hys⟩

/-! ## Variables that do not matter

Statements neither read nor write what they do not mention, so an execution can be repeated from any
state that agrees on the mentioned variables. -/

theorem Term.eval_env_congr {s u : State} {t : Term} (hagree : ∀ x ∈ t.vars, s x = u x) :
    t.eval s.env = t.eval u.env :=
  Term.eval_congr t fun x hx => congrArg some (hagree x (mem_vars_iff.2 hx))

theorem Term.evalBool_env_congr {s u : State} {t : Term} (hagree : ∀ x ∈ t.vars, s x = u x) :
    t.evalBool s.env = t.evalBool u.env := by
  rw [evalBool, eval_env_congr hagree, evalBool]

private theorem update_agree {V : List String} {s t : State} (hagree : ∀ x ∈ V, s x = t x)
    (y : String) (v : Value) :
    ∀ x ∈ V, Function.update s y v x = Function.update t y v x := by
  intro x hx
  by_cases hxy : x = y
  · subst hxy
    rw [Function.update_self, Function.update_self]
  · rw [Function.update_of_ne hxy, Function.update_of_ne hxy, hagree x hx]

theorem Statement.Step.frame {V : List String} {st : Statement} {s t u : State}
    (hstep : st.Step s u) (hmentions : ∀ x ∈ st.mentions, x ∈ V) (hagree : ∀ x ∈ V, s x = t x) :
    ∃ w, st.Step t w ∧ ∀ x ∈ V, u x = w x := by
  cases hstep with
  | @assign y e _ v hvalue =>
    have hvars : ∀ x ∈ e.vars, s x = t x := fun x hx =>
      hagree x (hmentions x (List.mem_cons_of_mem _ hx))
    rw [Term.eval_env_congr hvars] at hvalue
    exact ⟨_, .assign hvalue, update_agree hagree y v⟩
  | assume htrue =>
    rw [Term.evalBool_env_congr fun x hx => hagree x (hmentions x hx)] at htrue
    exact ⟨t, .assume htrue, hagree⟩
  | @havoc y _ v => exact ⟨_, .havoc v, update_agree hagree y v⟩

theorem Executes.frame {V : List String} {stmts : List Statement} {s t s' : State}
    {trace : List State} (h : Executes stmts s trace s')
    (hmentions : ∀ st ∈ stmts, ∀ x ∈ st.mentions, x ∈ V) (hagree : ∀ x ∈ V, s x = t x) :
    ∃ trace' t', Executes stmts t trace' t' ∧ ∀ x ∈ V, s' x = t' x := by
  induction h generalizing t with
  | nil => exact ⟨[], t, .nil t, hagree⟩
  | cons hstep _ ih =>
    obtain ⟨w, hw, hagree'⟩ := hstep.frame (hmentions _ List.mem_cons_self) hagree
    obtain ⟨trace', t', hrest, hlast⟩ :=
      ih (fun st hst => hmentions st (List.mem_cons_of_mem _ hst)) hagree'
    exact ⟨w :: trace', t', .cons hw hrest, hlast⟩

end LoopInvariant
