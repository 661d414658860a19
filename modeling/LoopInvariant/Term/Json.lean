import LoopInvariant.Json.Printer
import LoopInvariant.Term.Eval
/-!
# Terms in JSON

A constructor with arguments is an object with one field named for it, an operator is a string. The
reader opens at most a given number of nested containers; a record may also be written as the array
of its fields, and an operator as an object that holds nothing.
-/

namespace LoopInvariant

namespace Json

/-- An object with text keys. -/
def fields (fs : List (String × Json)) : Json := .object (fs.map fun (k, j) => (some k, j))

/-- An object with one field. -/
def tagged (tag : String) (j : Json) : Json := fields [(tag, j)]

/-- The text of a string. -/
def string? : Json → Option String
  | string s => s
  | _ => none

/-- The 64-bit value of a plain integer. -/
def int64? : Json → Option Int64
  | int i => checkedInt64 i
  | _ => none

/-- The truth value. -/
def bool? : Json → Option Bool
  | bool b => some b
  | _ => none

/-- A name out of a list of choices: a string, or an object with that one field and nothing in it
when a container may be opened. -/
def choice? {α : Type} (room : Nat) (choices : List (String × α)) : Json → Option α
  | string (some s) => choices.lookup s
  | object [(some s, null)] => if room = 0 then none else choices.lookup s
  | _ => none

/-- The field values of a record in the order of `names`, where an absent one is `none`. Fields that
are not named are passed over, one that occurs twice is refused; an array gives the values in
order. -/
def record? (names : List String) : Json → Option (List (Option Json))
  | array xs =>
    if names.length < xs.length then none
    else some (xs.map some ++ List.replicate (names.length - xs.length) none)
  | object fs =>
    match fs.mapM fun (k, j) => k.map fun k => (k, j) with
    | none => none
    | some fs =>
      names.mapM fun n =>
        match fs.filter fun (k, _) => k = n with
        | [] => some none
        | [(_, j)] => some (some j)
        | _ => none
  | _ => none

end Json

/-- Names of sorts. -/
def VarSort.choices : List (String × VarSort) := [("Bool", .bool), ("Int", .int)]

/-- Names of binary operators. -/
def Connective.choices : List (String × Connective) :=
  [("Equals", .equals), ("NotEquals", .notEquals), ("Implies", .implies), ("Iff", .iff)]

/-- Names of arithmetic operations. -/
def Arith.choices : List (String × Arith) := [("Add", .add), ("Sub", .sub), ("Mul", .mul)]

/-- Names of comparisons. -/
def Relation.choices : List (String × Relation) :=
  [("Lt", .lt), ("Leq", .leq), ("Geq", .geq), ("Gt", .gt)]

/-- Names of junctions. -/
def Junction.choices : List (String × Junction) := [("And", .and), ("Or", .or)]

/-- The two negations, by name. -/
def Term.negationChoices : List (String × (Term → Term)) := [("Not", .not), ("Neg", .neg)]

/-- The name of a choice. -/
def nameOf {α : Type} [DecidableEq α] (choices : List (String × α)) (a : α) : Json :=
  Json.str (((choices.find? fun c => c.2 = a).map (·.1)).getD "")

namespace Term

mutual

/-- A term in JSON. -/
def toJson : Term → Json
  | lit b => .tagged "Literal" (.bool b)
  | int i => .tagged "Int" (.int i.toInt)
  | var x => .tagged "Id" (.str x)
  | not t => .tagged "UnaryOp" (.array [.str "Not", toJson t])
  | neg t => .tagged "UnaryOp" (.array [.str "Neg", toJson t])
  | bin op l r => .tagged "BinOp" (.array [nameOf Connective.choices op, toJson l, toJson r])
  | arith op l r => .tagged "NumOp" (.array [nameOf Arith.choices op, toJson l, toJson r])
  | rel op l r => .tagged "NumRel" (.array [nameOf Relation.choices op, toJson l, toJson r])
  | nary op ts => .tagged "NAryOp" (.array [nameOf Junction.choices op, .array (listToJson ts)])
  | ite c t e =>
    .tagged "Ite" (.fields [("cond", toJson c), ("then", toJson t), ("else_", toJson e)])

/-- Several terms in JSON. -/
def listToJson : List Term → List Json
  | [] => []
  | t :: ts => toJson t :: listToJson ts

end

/-- A term from JSON, opening at most `room` nested containers. -/
def ofJson? (room : Nat) : Json → Option Term
  | .object [(some tag, body)] =>
    match room with
    | 0 => none
    | room + 1 =>
      match tag, body with
      | "Literal", j => j.bool?.map .lit
      | "Int", j => j.int64?.map .int
      | "Id", j => j.string?.map .var
      | "UnaryOp", .array [op, t] =>
        match room with
        | 0 => none
        | room + 1 => do
          let op ← op.choice? room negationChoices
          let t ← ofJson? room t
          return op t
      | "BinOp", .array [op, l, r] =>
        match room with
        | 0 => none
        | room + 1 => do
          let op ← op.choice? room Connective.choices
          let l ← ofJson? room l
          let r ← ofJson? room r
          return .bin op l r
      | "NumOp", .array [op, l, r] =>
        match room with
        | 0 => none
        | room + 1 => do
          let op ← op.choice? room Arith.choices
          let l ← ofJson? room l
          let r ← ofJson? room r
          return .arith op l r
      | "NumRel", .array [op, l, r] =>
        match room with
        | 0 => none
        | room + 1 => do
          let op ← op.choice? room Relation.choices
          let l ← ofJson? room l
          let r ← ofJson? room r
          return .rel op l r
      | "NAryOp", .array [op, .array ts] =>
        match room with
        | room + 2 => do
          let op ← op.choice? (room + 1) Junction.choices
          let ts ← ts.mapM (ofJson? room)
          return .nary op ts
        | _ => none
      | "Ite", j =>
        match room with
        | 0 => none
        | room + 1 => do
          let fs ← j.record? ["cond", "then", "else_"]
          match fs with
          | [some c, some t, some e] =>
            let c ← ofJson? room c
            let t ← ofJson? room t
            let e ← ofJson? room e
            return .ite c t e
          | _ => none
      | _, _ => none
  | _ => none
termination_by structural room

end Term

end LoopInvariant
