import LoopInvariant.Decimal
import LoopInvariant.Term.Eval
/-!
# S-expressions

What is exchanged with an SMT-LIB solver. Comments are part of the tree, so that saved queries can
be annotated and answers with comments can be read.
-/

namespace LoopInvariant

/-- An s-expression with its comments. -/
inductive Sexp where
  /-- A numeral; there are no negative ones. -/
  | num (n : UInt64)
  /-- A symbol. -/
  | sym (s : String)
  /-- A comment up to the end of its line. -/
  | comment (s : String)
  /-- A list. -/
  | list (xs : List Sexp)

namespace Sexp

instance : Inhabited Sexp := ⟨.list []⟩

mutual

/-- Whether two s-expressions are the same. -/
def same : Sexp → Sexp → Bool
  | num m, num n => m = n
  | sym s, sym t => s = t
  | comment s, comment t => s = t
  | list xs, list ys => sameList xs ys
  | _, _ => false

/-- Whether two lists hold the same s-expressions. -/
def sameList : List Sexp → List Sexp → Bool
  | [], [] => true
  | x :: xs, y :: ys => same x y && sameList xs ys
  | _, _ => false

end

mutual

theorem eq_of_same : ∀ {x y : Sexp}, same x y = true → x = y
  | num _, y, h => by cases y <;> simp_all [same]
  | sym _, y, h => by cases y <;> simp_all [same]
  | comment _, y, h => by cases y <;> simp_all [same]
  | list xs, y, h => by
    cases y with
    | list ys =>
      have heq : xs = ys := eq_of_sameList (by simpa [same] using h)
      rw [heq]
    | _ => simp [same] at h

theorem eq_of_sameList : ∀ {xs ys : List Sexp}, sameList xs ys = true → xs = ys
  | [], ys, h => by cases ys <;> simp_all [sameList]
  | x :: xs, ys, h => by
    cases ys with
    | nil => simp [sameList] at h
    | cons y ys =>
      simp only [sameList, Bool.and_eq_true] at h
      rw [eq_of_same h.1, eq_of_sameList h.2]

end

mutual

theorem same_self : ∀ x : Sexp, same x x = true
  | num _ | sym _ | comment _ => by simp [same]
  | list xs => by simp [same, sameList_self xs]

theorem sameList_self : ∀ xs : List Sexp, sameList xs xs = true
  | [] => rfl
  | x :: xs => by simp [sameList, same_self x, sameList_self xs]

end

instance : DecidableEq Sexp := fun x y =>
  decidable_of_iff (same x y = true) ⟨eq_of_same, fun h => h ▸ same_self x⟩

/-- An application of a symbol. -/
def app (head : String) (args : List Sexp) : Sexp := list (sym head :: args)

/-- An integer constant; a negative one is an application of the minus sign. -/
def ofInt (i : Int64) : Sexp :=
  if i.toInt < 0 then app "-" [num (UInt64.ofNat i.toInt.natAbs)]
  else num (UInt64.ofNat i.toInt.natAbs)

/-- The symbol, if this is one. -/
def symbol? : Sexp → Option String
  | sym s => some s
  | _ => none

/-- The elements, if this is a list. -/
def list? : Sexp → Option (List Sexp)
  | list xs => some xs
  | _ => none

/-- The head symbol and the arguments of an application. -/
def app? : Sexp → Option (String × List Sexp)
  | list (sym s :: args) => some (s, args)
  | _ => none

/-- The truth value of a constant. -/
def bool? : Sexp → Option Bool
  | sym "true" => some true
  | sym "false" => some false
  | _ => none

/-- The integer of a constant: a numeral of the signed range, under any number of minus signs. -/
def int? : Sexp → Option Int64
  | num n => checkedInt64 n.toNat
  | list [sym "-", x] => (int? x).map fun i => -i
  | _ => none

/-! ## Printing -/

/-- Whether a symbol has to be written between bars. -/
def needsBars (s : String) : Bool := s.toList.any fun c => c ∈ [' ', '"', '\'', '(', ')']

/-- A symbol as it is written. -/
def symbolChars (s : String) : List Char :=
  if needsBars s then '|' :: s.toList ++ ['|'] else s.toList

mutual

/-- An s-expression as it is written. -/
def chars : Sexp → List Char
  | num n => Decimal.write n.toNat
  | sym s => symbolChars s
  | comment s => ';' :: s.toList
  | list [] => ['(', ')']
  | list (comment s :: xs) => '(' :: '\n' :: ';' :: s.toList ++ '\n' :: moreChars true xs
  | list (x :: xs) => '(' :: chars x ++ moreChars false xs

/-- The elements after the first and the closing parenthesis. Elements are parted by a blank, except
after a comment, which stands on a line of its own. -/
def moreChars (afterComment : Bool) : List Sexp → List Char
  | [] => [')']
  | comment s :: xs => '\n' :: ';' :: s.toList ++ '\n' :: moreChars true xs
  | x :: xs => (if afterComment then [] else [' ']) ++ chars x ++ moreChars false xs

end

/-- An s-expression as a text. -/
def print (x : Sexp) : String := String.ofList x.chars

end Sexp

/-! ## Terms -/

namespace Term

mutual

/-- A term in SMT-LIB. Junctions of fewer than two operands are not written as such. -/
def toSexp : Term → Sexp
  | lit b => .sym (if b then "true" else "false")
  | int i => .ofInt i
  | var x => .sym x
  | not t => .app "not" [toSexp t]
  | neg t => .app "-" [toSexp t]
  | bin op l r =>
    let head := match op with
      | .equals | .iff => "="
      | .notEquals => "distinct"
      | .implies => "=>"
    .app head [toSexp l, toSexp r]
  | arith op l r =>
    let head := match op with
      | .add => "+"
      | .sub => "-"
      | .mul => "*"
    .app head [toSexp l, toSexp r]
  | rel op l r =>
    let head := match op with
      | .lt => "<"
      | .leq => "<="
      | .geq => ">="
      | .gt => ">"
    .app head [toSexp l, toSexp r]
  | nary .and [] => .sym "true"
  | nary .or [] => .sym "false"
  | nary _ [t] => toSexp t
  | nary op (t :: u :: ts) =>
    .app (match op with | .and => "and" | .or => "or") (toSexp t :: toSexp u :: toSexpList ts)
  | ite c t e => .app "ite" [toSexp c, toSexp t, toSexp e]

/-- Several terms in SMT-LIB. -/
def toSexpList : List Term → List Sexp
  | [] => []
  | t :: ts => toSexp t :: toSexpList ts

end

theorem toSexp_ite (c t e : Term) :
    (ite c t e).toSexp = .app "ite" [c.toSexp, t.toSexp, e.toSexp] := by
  rw [toSexp]

end Term

end LoopInvariant
