import LoopInvariant.SortedSet
/-!
# Terms

Quantifier-free terms over Boolean and 64-bit integer variables, with constructors that simplify as
they build: `complement`, `opposite?`, `conj` and `disj`.
-/

namespace LoopInvariant

/-- The sort of a variable or value. -/
inductive VarSort where
  | bool
  | int
  deriving DecidableEq, Ord, Repr

instance : Std.LawfulEqOrd VarSort where
  compare_self {a} := by cases a <;> rfl
  eq_of_compare {a b} h := by cases a <;> cases b <;> first | rfl | cases h

/-- The sort as it is written. -/
def VarSort.print : VarSort → String
  | .bool => "Bool"
  | .int => "Int"

/-- Binary operators on truth values, and equality on values of either sort. -/
inductive Connective where
  | equals
  | notEquals
  | implies
  | iff
  deriving DecidableEq, Ord, Repr

instance : Std.LawfulEqOrd Connective where
  compare_self {a} := by cases a <;> rfl
  eq_of_compare {a b} h := by cases a <;> cases b <;> first | rfl | cases h

/-- Integer arithmetic. -/
inductive Arith where
  | add
  | sub
  | mul
  deriving DecidableEq, Ord, Repr

instance : Std.LawfulEqOrd Arith where
  compare_self {a} := by cases a <;> rfl
  eq_of_compare {a b} h := by cases a <;> cases b <;> first | rfl | cases h

/-- Integer comparisons. -/
inductive Relation where
  | lt
  | leq
  | geq
  | gt
  deriving DecidableEq, Ord, Repr

instance : Std.LawfulEqOrd Relation where
  compare_self {a} := by cases a <;> rfl
  eq_of_compare {a b} h := by cases a <;> cases b <;> first | rfl | cases h

/-- The comparison that holds exactly when the given one does not. -/
def Relation.negate : Relation → Relation
  | .lt => .geq
  | .leq => .gt
  | .geq => .lt
  | .gt => .leq

/-- Connectives that take any number of operands. -/
inductive Junction where
  | and
  | or
  deriving DecidableEq, Ord, Repr

instance : Std.LawfulEqOrd Junction where
  compare_self {a} := by cases a <;> rfl
  eq_of_compare {a b} h := by cases a <;> cases b <;> first | rfl | cases h

/-- The truth value that decides the connective on its own. -/
def Junction.absorbing : Junction → Bool
  | .and => false
  | .or => true

/-- A quantifier-free term. -/
inductive Term where
  /-- A truth value. -/
  | lit (b : Bool)
  /-- An integer constant. -/
  | int (i : Int64)
  /-- A variable. -/
  | var (name : String)
  /-- Boolean negation. -/
  | not (t : Term)
  /-- Integer negation. -/
  | neg (t : Term)
  /-- A binary connective or an equality. -/
  | bin (op : Connective) (l r : Term)
  /-- Integer arithmetic. -/
  | arith (op : Arith) (l r : Term)
  /-- An integer comparison. -/
  | rel (op : Relation) (l r : Term)
  /-- A conjunction or disjunction. -/
  | nary (op : Junction) (ts : List Term)
  /-- If `c` then `t` else `e`. -/
  | ite (c t e : Term)

instance : Inhabited Term := ⟨.lit true⟩

namespace Term

/-! ## Order

Terms are ordered by their outermost constructor, in the order of declaration, and then by its
arguments from left to right. Equality of terms is decided through this order. -/

/-- The place of the outermost constructor. -/
def rank : Term → Nat
  | lit _ => 0
  | int _ => 1
  | var _ => 2
  | not _ => 3
  | neg _ => 4
  | bin .. => 5
  | arith .. => 6
  | rel .. => 7
  | nary .. => 8
  | ite .. => 9

mutual

/-- Three-way comparison of terms. -/
def cmp : Term → Term → Ordering
  | lit a, lit b => compare a b
  | int a, int b => compare a b
  | var a, var b => compare a b
  | not a, not b => cmp a b
  | neg a, neg b => cmp a b
  | bin o l r, bin o' l' r' => (compare o o').then ((cmp l l').then (cmp r r'))
  | arith o l r, arith o' l' r' => (compare o o').then ((cmp l l').then (cmp r r'))
  | rel o l r, rel o' l' r' => (compare o o').then ((cmp l l').then (cmp r r'))
  | nary o ts, nary o' ts' => (compare o o').then (cmpList ts ts')
  | ite c t e, ite c' t' e' => (cmp c c').then ((cmp t t').then (cmp e e'))
  | s, t => compare s.rank t.rank

/-- Lists of terms are compared element by element; a proper initial part comes first. -/
def cmpList : List Term → List Term → Ordering
  | [], [] => .eq
  | [], _ :: _ => .lt
  | _ :: _, [] => .gt
  | s :: ss, t :: ts => (cmp s t).then (cmpList ss ts)

end

instance : Ord Term := ⟨cmp⟩

mutual

theorem eq_of_cmp : ∀ {s t : Term}, cmp s t = .eq → s = t := by
  intro s t h
  cases s <;> cases t <;> simp only [cmp, rank, Ordering.then_eq_eq] at h <;>
    first
    | exact absurd h (by decide)
    | rw [Std.LawfulEqOrd.eq_of_compare h]
    | rw [eq_of_cmp h]
    | rw [Std.LawfulEqOrd.eq_of_compare h.1, eq_of_cmp h.2.1, eq_of_cmp h.2.2]
    | rw [Std.LawfulEqOrd.eq_of_compare h.1, eq_of_cmpList h.2]
    | rw [eq_of_cmp h.1, eq_of_cmp h.2.1, eq_of_cmp h.2.2]

theorem eq_of_cmpList : ∀ {ss ts : List Term}, cmpList ss ts = .eq → ss = ts
  | [], [], _ => rfl
  | [], _ :: _, h => absurd h (by simp [cmpList])
  | _ :: _, [], h => absurd h (by simp [cmpList])
  | s :: ss, t :: ts, h => by
    simp only [cmpList, Ordering.then_eq_eq] at h
    rw [eq_of_cmp h.1, eq_of_cmpList h.2]

end

mutual

theorem cmp_self : ∀ t : Term, cmp t t = .eq
  | lit _ | int _ | var _ => by simp [cmp]
  | not t | neg t => by simp [cmp, cmp_self t]
  | bin _ l r | arith _ l r | rel _ l r => by simp [cmp, cmp_self l, cmp_self r]
  | nary _ ts => by simp [cmp, cmpList_self ts]
  | ite c t e => by simp [cmp, cmp_self c, cmp_self t, cmp_self e]

theorem cmpList_self : ∀ ts : List Term, cmpList ts ts = .eq
  | [] => rfl
  | t :: ts => by simp [cmpList, cmp_self t, cmpList_self ts]

end

instance : Std.LawfulEqOrd Term where
  compare_self {t} := cmp_self t
  eq_of_compare h := eq_of_cmp h

instance : DecidableEq Term := fun s t =>
  decidable_of_iff (cmp s t = .eq) ⟨eq_of_cmp, fun h => h ▸ cmp_self s⟩

/-- The terms in ascending order, each once. -/
def sortUnique (ts : List Term) : List Term :=
  (ts.mergeSort fun s t => (cmp s t).isLE).eraseReps

/-! ## Simplifying constructors -/

/-- `l = r`. -/
def equals (l r : Term) : Term := .bin .equals l r

/-- Boolean negation. It cancels a double negation, turns equalities and comparisons into their
opposites and evaluates truth values. -/
def complement : Term → Term
  | lit b => lit !b
  | not t => t
  | bin .equals l r => bin .notEquals l r
  | bin .notEquals l r => bin .equals l r
  | rel op l r => rel op.negate l r
  | t => not t

/-- Integer negation, which evaluates constants. The least integer has no opposite. -/
def opposite? : Term → Option Term
  | int i => if i = Int64.minValue then none else some (int (-i))
  | t => some (neg t)

/-- Replace each operand that is itself a junction of the same kind by its operands. -/
def flatten (op : Junction) (ts : List Term) : List Term :=
  ts.flatMap fun
    | nary op' us => if op' = op then us else [nary op' us]
    | t => [t]

/-- Join terms with a connective: operands equal to its neutral value are dropped, an absorbing
operand decides, nested junctions are opened one level, and a lone operand stands for itself. -/
def junction (op : Junction) (ts : List Term) : Term :=
  let kept := ts.filter (· ≠ lit !op.absorbing)
  if lit op.absorbing ∈ kept then lit op.absorbing
  else
    match flatten op kept with
    | [] => lit !op.absorbing
    | [t] => t
    | us => nary op us

/-- Conjunction. -/
def conj (ts : List Term) : Term := junction .and ts

/-- Disjunction. -/
def disj (ts : List Term) : Term := junction .or ts

/-! ## Variables and shape -/

mutual

/-- Every occurrence of a variable, from left to right. -/
def occurrences : Term → List String
  | lit _ | int _ => []
  | var x => [x]
  | not t | neg t => occurrences t
  | bin _ l r | arith _ l r | rel _ l r => occurrences l ++ occurrences r
  | nary _ ts => occurrencesList ts
  | ite c t e => occurrences c ++ occurrences t ++ occurrences e

/-- Every occurrence of a variable in a list of terms. -/
def occurrencesList : List Term → List String
  | [] => []
  | t :: ts => occurrences t ++ occurrencesList ts

end

/-- The variables of a term, in order and each once. -/
def vars (t : Term) : List String := (SortedSet.ofList t.occurrences).toList

mutual

/-- Rename every variable. -/
def rename (f : String → String) : Term → Term
  | lit b => lit b
  | int i => int i
  | var x => var (f x)
  | not t => not (rename f t)
  | neg t => neg (rename f t)
  | bin op l r => bin op (rename f l) (rename f r)
  | arith op l r => arith op (rename f l) (rename f r)
  | rel op l r => rel op (rename f l) (rename f r)
  | nary op ts => nary op (renameList f ts)
  | ite c t e => ite (rename f c) (rename f t) (rename f e)

/-- Rename every variable of a list of terms. -/
def renameList (f : String → String) : List Term → List Term
  | [] => []
  | t :: ts => rename f t :: renameList f ts

end

mutual

/-- The terms whose conjunction this is: nested conjunctions are opened and `true` is dropped. -/
def conjuncts : Term → List Term
  | nary .and ts => conjunctsList ts
  | lit true => []
  | t => [t]

/-- The conjuncts of several terms. -/
def conjunctsList : List Term → List Term
  | [] => []
  | t :: ts => conjuncts t ++ conjunctsList ts

end

/-- Whether the term is a comparison, an equality or a disequality. -/
def isAtom : Term → Bool
  | rel .. | bin .equals .. | bin .notEquals .. => true
  | _ => false

end Term

end LoopInvariant
