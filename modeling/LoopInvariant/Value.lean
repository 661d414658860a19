import LoopInvariant.Term
/-!
# Values and valuations

A valuation is a partial assignment: a variable it leaves out is unknown.
-/

namespace LoopInvariant

/-- A value of a variable. -/
inductive Value where
  | bool (b : Bool)
  | int (i : Int64)
  deriving DecidableEq, Repr

namespace Value

instance : Inhabited Value := ⟨.bool false⟩

/-- Truth values come before integers. -/
def cmp : Value → Value → Ordering
  | bool a, bool b => compare a b
  | bool _, int _ => .lt
  | int _, bool _ => .gt
  | int a, int b => compare a b

instance : Ord Value := ⟨cmp⟩

@[simp] theorem compare_bool (a b : Bool) : compare (bool a) (bool b) = compare a b := rfl
@[simp] theorem compare_bool_int (a : Bool) (b : Int64) : compare (bool a) (int b) = .lt := rfl
@[simp] theorem compare_int_bool (a : Int64) (b : Bool) : compare (int a) (bool b) = .gt := rfl
@[simp] theorem compare_int (a b : Int64) : compare (int a) (int b) = compare a b := rfl

instance : Std.TransOrd Value where
  eq_swap {a b} := by
    cases a with
    | bool a =>
      cases b with
      | bool b => simpa using Std.OrientedOrd.eq_swap
      | int b => rfl
    | int a =>
      cases b with
      | bool b => rfl
      | int b => simpa using Std.OrientedOrd.eq_swap
  isLE_trans {a b c} h h' := by
    cases a with
    | bool a =>
      cases b with
      | bool b =>
        cases c with
        | bool c => simp only [compare_bool] at *; exact Std.TransOrd.isLE_trans h h'
        | int c => rfl
      | int b =>
        cases c with
        | bool c => cases h'
        | int c => rfl
    | int a =>
      cases b with
      | bool b => cases h
      | int b =>
        cases c with
        | bool c => cases h'
        | int c => simp only [compare_int] at *; exact Std.TransOrd.isLE_trans h h'

instance : Std.LawfulEqOrd Value where
  compare_self {a} := by
    cases a with
    | bool a => rw [compare_bool]; exact Std.ReflOrd.compare_self
    | int a => rw [compare_int]; exact Std.ReflOrd.compare_self
  eq_of_compare {a b} h := by
    cases a with
    | bool a =>
      cases b with
      | bool b => rw [compare_bool] at h; rw [Std.LawfulEqOrd.eq_of_compare h]
      | int b => cases h
    | int a =>
      cases b with
      | bool b => cases h
      | int b => rw [compare_int] at h; rw [Std.LawfulEqOrd.eq_of_compare h]

/-- The truth value, if this is one. -/
def bool? : Value → Option Bool
  | bool b => some b
  | int _ => none

/-- The integer, if this is one. -/
def int? : Value → Option Int64
  | bool _ => none
  | int i => some i

/-- The sort of a value. -/
def sort : Value → VarSort
  | bool _ => .bool
  | int _ => .int

/-- The value that completes a model where it says nothing. -/
def ofSort : VarSort → Value
  | .bool => bool false
  | .int => int 0

/-- The value as a constant. -/
def toTerm : Value → Term
  | bool b => .lit b
  | int i => .int i

/-- The value as it is written. -/
def print : Value → String
  | bool b => if b then "true" else "false"
  | int i => toString i.toInt

end Value

/-- A partial assignment of values to variables. -/
abbrev Valuation := SortedMap String Value

/-- A valuation as it is written: `{b = true, x = 1}`, in the order of the names. -/
def Valuation.print (v : Valuation) : String :=
  "\x7b" ++ ", ".intercalate (v.entries.map fun (x, a) => x ++ " = " ++ a.print) ++ "\x7d"

end LoopInvariant
