import LoopInvariant.Term
/-!
# Terms as they are written

Operators are infix and always in parentheses; only negations go without.
-/

namespace LoopInvariant

/-- The sign of a binary operator. -/
def Connective.sign : Connective → String
  | equals => "="
  | notEquals => "!="
  | implies => "->"
  | iff => "<->"

/-- The sign of an arithmetic operation. -/
def Arith.sign : Arith → String
  | add => "+"
  | sub => "-"
  | mul => "*"

/-- The sign of a comparison. -/
def Relation.sign : Relation → String
  | lt => "<"
  | leq => "<="
  | geq => ">="
  | gt => ">"

/-- The sign between the operands of a junction. -/
def Junction.sign : Junction → String
  | and => " & "
  | or => " | "

namespace Term

mutual

/-- A term as it is written. -/
def print : Term → String
  | lit b => if b then "true" else "false"
  | int i => toString i.toInt
  | var x => x
  | not t => "!" ++ print t
  | neg t => "-" ++ print t
  | bin op l r => "(" ++ print l ++ " " ++ op.sign ++ " " ++ print r ++ ")"
  | arith op l r => "(" ++ print l ++ " " ++ op.sign ++ " " ++ print r ++ ")"
  | rel op l r => "(" ++ print l ++ " " ++ op.sign ++ " " ++ print r ++ ")"
  | nary op ts => "(" ++ op.sign.intercalate (printList ts) ++ ")"
  | ite c t e => "(if " ++ print c ++ " then " ++ print t ++ " else " ++ print e ++ ")"

/-- Several terms as they are written. -/
def printList : List Term → List String
  | [] => []
  | t :: ts => print t :: printList ts

end

end Term

end LoopInvariant
