import LoopInvariant.CheckedInt
import LoopInvariant.Value
/-!
# Three-valued evaluation

A term is evaluated in an environment that may not know every variable. There is no value when it
depends on an unknown variable, when the term is ill-sorted or when a result leaves the 64-bit
range. The connectives short-circuit: `false & y` is false whatever `y` is.
-/

namespace LoopInvariant

/-- What is known of each variable. -/
abbrev Env := String → Option Value

namespace Arith

/-- The operation on integers without bounds. -/
def apply : Arith → Int → Int → Int
  | add, a, b => a + b
  | sub, a, b => a - b
  | mul, a, b => a * b

/-- The operation on 64-bit integers, without a result where it leaves the range. -/
def checked (op : Arith) (a b : Int64) : Option Int64 :=
  checkedInt64 (op.apply a.toInt b.toInt)

end Arith

/-- Whether a comparison holds. -/
def Relation.holds : Relation → Int64 → Int64 → Bool
  | lt, a, b => a < b
  | leq, a, b => a ≤ b
  | geq, a, b => b ≤ a
  | gt, a, b => b < a

/-- Three-valued junction: an absorbing operand decides, else every operand has to be known. -/
def Junction.join (op : Junction) (bs : List (Option Bool)) : Option Bool :=
  if some op.absorbing ∈ bs then some op.absorbing
  else if none ∈ bs then none
  else some !op.absorbing

/-- Three-valued binary operators. -/
def Connective.join : Connective → Option Value → Option Value → Option Bool
  | equals, some a, some b => some (a = b)
  | notEquals, some a, some b => some (a ≠ b)
  | iff, a, b =>
    match a.bind Value.bool?, b.bind Value.bool? with
    | some p, some q => some (p = q)
    | _, _ => none
  | implies, a, b =>
    match a.bind Value.bool?, b.bind Value.bool? with
    | some false, _ => some true
    | _, some true => some true
    | some true, some false => some false
    | _, _ => none
  | _, _, _ => none

namespace Term

mutual

/-- The value of a term. -/
def eval (env : Env) : Term → Option Value
  | lit b => some (.bool b)
  | int i => some (.int i)
  | var x => env x
  | not t => ((eval env t).bind Value.bool?).map fun b => .bool !b
  | neg t => ((eval env t).bind Value.int?).bind fun i => (checkedInt64 (-i.toInt)).map .int
  | bin op l r => (op.join (eval env l) (eval env r)).map .bool
  | arith op l r =>
    match (eval env l).bind Value.int?, (eval env r).bind Value.int? with
    | some a, some b => (op.checked a b).map .int
    | _, _ => none
  | rel op l r =>
    match (eval env l).bind Value.int?, (eval env r).bind Value.int? with
    | some a, some b => some (.bool (op.holds a b))
    | _, _ => none
  | nary op ts => (op.join (evalBools env ts)).map .bool
  | ite c t e =>
    match (eval env c).bind Value.bool? with
    | some true => eval env t
    | some false => eval env e
    | none =>
      match eval env t, eval env e with
      | some a, some b => if a = b then some a else none
      | _, _ => none

/-- The truth values of several terms. -/
def evalBools (env : Env) : List Term → List (Option Bool)
  | [] => []
  | t :: ts => (eval env t).bind Value.bool? :: evalBools env ts

end

/-- The truth value of a term. -/
def evalBool (env : Env) (t : Term) : Option Bool := (t.eval env).bind Value.bool?

/-- The integer value of a term. -/
def evalInt (env : Env) (t : Term) : Option Int64 := (t.eval env).bind Value.int?

end Term

end LoopInvariant
