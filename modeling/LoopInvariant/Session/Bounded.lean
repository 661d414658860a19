import LoopInvariant.Session
/-!
# Bounded sessions

A session that searches for models itself. Integers range over a box around zero, except that a
variable defined by an asserted equation takes the value of the other side once that is known. The
search assigns one variable after the other, early versions first, and gives up a branch as soon as
an asserted conjunct is false whatever the open variables are.
-/

namespace LoopInvariant

/-- A bounded session. -/
structure BoundedSession where
  signature : Signature
  /-- The greatest integer that is tried. -/
  radius : Nat
  /-- The conjuncts asserted outside all scopes. -/
  base : List Term := []
  /-- The conjuncts asserted in each open scope, the innermost first. -/
  scopes : List (List Term) := []
  /-- The model of the last check that found one. -/
  model : Option Valuation := none
  canceled : Bool := false

namespace BoundedSession

/-- A session over a box. The smallest integer has no absolute value and is no radius. -/
def ofRadius? (s : Signature) (radius : Int64) : Option BoundedSession :=
  (checkedInt64 radius.toInt.natAbs).map fun _ => { signature := s, radius := radius.toInt.natAbs }

/-- All conjuncts that are asserted, the outermost first. -/
def conjuncts (s : BoundedSession) : List Term := s.base ++ s.scopes.reverse.flatten

/-- The values of a sort that are tried, in order. -/
def domain (radius : Nat) : VarSort → List Value
  | .bool => [.bool false, .bool true]
  | .int =>
    .int 0 :: (List.range radius).flatMap fun i =>
      [.int (Int64.ofNat (i + 1)), .int (-Int64.ofNat (i + 1))]

/-- The term that an equation gives for a variable. -/
def definition? (x : String) : Term → Option Term
  | .bin .equals l r | .bin .iff l r =>
    if l = .var x ∧ x ∉ r.vars then some r
    else if r = .var x ∧ x ∉ l.vars then some l
    else none
  | _ => none

/-- The value that the equations give for a variable. -/
def definedValue? (x : String) (cs : List Term) (v : Valuation) : Option Value :=
  cs.findSome? fun c => (definition? x c).bind fun e => e.eval v.get?

/-- The values tried for a variable. -/
def choices (s : BoundedSession) (x : String) (cs : List Term) (v : Valuation) :
    Except SessionError (List Value) :=
  match definedValue? x cs v with
  | some a => .ok [a]
  | none => (s.signature.sortOf x).map (domain s.radius)

/-- The first result that is found among several values. -/
def firstFound {α : Type} (f : Value → Except SessionError (Option α)) :
    List Value → Except SessionError (Option α)
  | [] => .ok none
  | a :: as =>
    match f a with
    | .ok none => firstFound f as
    | found => found

/-- Extend a valuation by values of variables so that all conjuncts are true. -/
def search (s : BoundedSession) (cs : List Term) :
    List String → Valuation → Except SessionError (Option Valuation)
  | [], v => .ok (if cs.all fun c => c.evalBool v.get? = some true then some v else none)
  | x :: xs, v =>
    if cs.any fun c => c.evalBool v.get? = some false then .ok none
    else if s.canceled then .error .canceled
    else
      match s.choices x cs v with
      | .error e => .error e
      | .ok values => firstFound (fun a => search s cs xs (v.insert x a)) values

/-- Where a variable stands in the search: by version, then by name. -/
def searchKey (x : String) : Nat × String :=
  match unversioned? x with
  | some (base, k) => (k, base)
  | none => (0, x)

/-- Whether a variable is assigned no later than another. -/
def searchesBefore (x y : String) : Bool :=
  let (i, a) := searchKey x
  let (k, b) := searchKey y
  match compare i k with
  | .lt => true
  | .gt => false
  | .eq => (compare a b).isLE

/-- The variables of conjuncts in the order of the search. -/
def searchOrder (cs : List Term) : List String :=
  (SortedSet.ofList (cs.flatMap Term.vars)).toList.mergeSort searchesBefore

/-- Check the assertions. -/
def check (s : BoundedSession) : Except SessionError (Option Valuation) :=
  s.search s.conjuncts (searchOrder s.conjuncts) (SortedMap.ofList [])

/-- Fail if one of the variables has no sort. -/
def needSorts (s : BoundedSession) : List String → Except SessionError Unit
  | [] => .ok ()
  | x :: xs =>
    match s.signature.sortOf x with
    | .ok _ => needSorts s xs
    | .error e => .error e

/-- The values of variables in a model. A variable that the model leaves open has the default value
of its sort. -/
def complete (s : BoundedSession) (m : Valuation) :
    List String → Valuation → Except SessionError Valuation
  | [], v => .ok v
  | x :: xs, v =>
    match m.get? x with
    | some a => complete s m xs (v.insert x a)
    | none =>
      match s.signature.sortOf x with
      | .ok sort => complete s m xs (v.insert x (.ofSort sort))
      | .error e => .error e

/-- Add conjuncts to the innermost scope. -/
def add (s : BoundedSession) (cs : List Term) : BoundedSession :=
  match s.scopes with
  | [] => { s with base := s.base ++ cs, model := none }
  | f :: fs => { s with scopes := (f ++ cs) :: fs, model := none }

instance : Session BoundedSession where
  push := fun s => (.ok (), { s with scopes := [] :: s.scopes, model := none })
  pop := fun s =>
    match s.scopes with
    | [] => (.error .popEmpty, s)
    | _ :: fs => (.ok (), { s with scopes := fs, model := none })
  declare := fun xs s => (s.needSorts xs, s)
  assert := fun t s =>
    match s.needSorts t.vars with
    | .ok () => (.ok (), s.add t.conjuncts)
    | .error e => (.error e, s)
  checkSat := fun s =>
    match s.check with
    | .ok (some m) => (.ok .sat, { s with model := some m })
    | .ok none => (.ok .unsat, s)
    | .error e => (.error e, s)
  model := fun xs s =>
    match s.model with
    | none => (.error .noModel, s)
    | some m => (s.complete m xs (SortedMap.ofList []), s)
  cancel := fun s => { s with canceled := true }
  isCanceled := fun s => s.canceled

end BoundedSession

end LoopInvariant
