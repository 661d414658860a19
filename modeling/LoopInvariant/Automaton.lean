import LoopInvariant.Statement
import LoopInvariant.Value
/-!
# Control-flow automata

A `Description` names its parts; an `Automaton` is a checked description in which locations are
numbered. Main definitions: `Automaton.ofDescription`, which says what is wrong with a description,
and `Automaton.reachable`, the locations in breadth-first order.
-/

namespace LoopInvariant

/-- A declared variable. -/
structure VarDecl where
  name : String
  sort : VarSort
  deriving DecidableEq

/-- The declaration as it is written. -/
def VarDecl.print (d : VarDecl) : String := d.name ++ ": " ++ d.sort.print

/-- A described edge. -/
structure EdgeDescription where
  source : String
  target : String
  stmts : List Statement
  deriving DecidableEq

/-- A described automaton. -/
structure Description where
  decls : List VarDecl
  locations : List String
  entry : String
  error : String
  edges : List EdgeDescription
  deriving DecidableEq

/-- What is wrong with a description. -/
inductive DescriptionError where
  | duplicateLocation (name : String)
  | unknownLocation (name : String)
  | duplicateVariable (name : String)
  | reservedName (name : String)
  | unknownVariable (x source target : String)
  deriving DecidableEq

/-- The error as it is reported. -/
def DescriptionError.message : DescriptionError → String
  | duplicateLocation n => "location " ++ n ++ " is declared twice"
  | unknownLocation n => "unknown location " ++ n
  | duplicateVariable n => "variable " ++ n ++ " is declared twice"
  | reservedName n => "variable name " ++ n ++ " may not contain '@'"
  | unknownVariable x s t => "unknown variable " ++ x ++ " on edge " ++ s ++ " -> " ++ t

/-- A location of an automaton, by its number. -/
abbrev Loc := Nat

/-- An edge between numbered locations. -/
structure Edge where
  source : Loc
  target : Loc
  stmts : List Statement
  deriving DecidableEq

/-- A control-flow automaton. -/
structure Automaton where
  decls : List VarDecl
  locations : List String
  entry : Loc
  error : Loc
  edges : List Edge
  deriving DecidableEq

namespace Automaton

/-- Refuse a variable that is declared twice or whose name contains `@`, whichever comes first. -/
def checkVariables (seen : List String) : List VarDecl → Except DescriptionError Unit
  | [] => .ok ()
  | d :: rest =>
    if d.name ∈ seen then .error (.duplicateVariable d.name)
    else if '@' ∈ d.name.toList then .error (.reservedName d.name)
    else checkVariables (d.name :: seen) rest

/-- Refuse a location that is declared twice. -/
def checkLocations (seen : List String) : List String → Except DescriptionError Unit
  | [] => .ok ()
  | l :: rest =>
    if l ∈ seen then .error (.duplicateLocation l) else checkLocations (l :: seen) rest

/-- The number of a declared location. -/
def number (locations : List String) (name : String) : Except DescriptionError Loc :=
  match locations.idxOf? name with
  | some l => .ok l
  | none => .error (.unknownLocation name)

/-- Number the ends of an edge, after checking that every variable it mentions is declared. -/
def checkEdge (names locations : List String) (e : EdgeDescription) :
    Except DescriptionError Edge := do
  match (e.stmts.flatMap Statement.mentions).find? (· ∉ names) with
  | some x => .error (.unknownVariable x e.source e.target)
  | none =>
    let source ← number locations e.source
    let target ← number locations e.target
    return { source, target, stmts := e.stmts }

/-- Check a description: variables first, then locations, edges, and the two distinguished
locations. -/
def ofDescription (d : Description) : Except DescriptionError Automaton := do
  checkVariables [] d.decls
  checkLocations [] d.locations
  let edges ← d.edges.mapM (checkEdge (d.decls.map (·.name)) d.locations)
  let entry ← number d.locations d.entry
  let error ← number d.locations d.error
  return { decls := d.decls, locations := d.locations, entry, error, edges }

variable (a : Automaton)

/-- The name of a location. -/
def name (l : Loc) : String := a.locations.getD l ""

/-- The location of a name. -/
def location? (name : String) : Option Loc := a.locations.idxOf? name

/-- The description the automaton is rebuilt from. -/
def describe : Description where
  decls := a.decls
  locations := a.locations
  entry := a.name a.entry
  error := a.name a.error
  edges := a.edges.map fun e =>
    { source := a.name e.source, target := a.name e.target, stmts := e.stmts }

/-- The statements on an edge. -/
def stmts (e : Nat) : List Statement := (a.edges[e]?.map (·.stmts)).getD []

/-- The edges that leave a location with their targets, in the order of description. -/
def successors (l : Loc) : List (Nat × Loc) :=
  (a.edges.zipIdx.filter fun (e, _) => e.source = l).map fun (e, i) => (i, e.target)

/-- The locations one edge away. -/
def targets (l : Loc) : List Loc := (a.successors l).map (·.2)

/-- Breadth-first search: visit the queue's head, queue those of its targets that were not seen.
The fuel bounds the number of visits. -/
def visit : Nat → List Loc → List Loc → List Loc
  | _, _, [] => []
  | 0, _, _ :: _ => []
  | fuel + 1, seen, l :: queue =>
    let fresh := ((a.targets l).filter (· ∉ seen)).eraseDups
    l :: visit fuel (seen ++ fresh) (queue ++ fresh)

/-- The locations that can be reached from the entry, in breadth-first order. -/
def reachable : List Loc := a.visit (a.locations.length + 1) [a.entry] [a.entry]

end Automaton

/-! ## Building descriptions step by step -/

namespace Description

/-- Declare a location, unless it is declared already. -/
def addLocation (d : Description) (name : String) : Description :=
  if name ∈ d.locations then d else { d with locations := d.locations ++ [name] }

/-- A description with an entry and an error location only. -/
def start (entry error : String) : Description :=
  let d : Description := { decls := [], locations := [], entry, error, edges := [] }
  (d.addLocation entry).addLocation error

/-- Declare a variable. -/
def addVariable (d : Description) (name : String) (sort : VarSort) : Description :=
  { d with decls := d.decls ++ [{ name, sort }] }

/-- Add an edge and declare its ends. -/
def addEdge (d : Description) (source target : String) (stmts : List Statement) : Description :=
  let d := (d.addLocation source).addLocation target
  { d with edges := d.edges ++ [{ source, target, stmts }] }

end Description

end LoopInvariant
