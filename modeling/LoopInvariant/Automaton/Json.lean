import LoopInvariant.Automaton
import LoopInvariant.Term.Json
/-!
# Automata in JSON

A text is read in two steps: the description, which is refused as a whole when its form is wrong,
and the automaton, which is refused with a cause. At most 127 nested containers are opened.
-/

namespace LoopInvariant

/-- The items of an array, each read with one container less to open. -/
def Json.list? {α : Type} (read : Nat → Json → Option α) : Nat → Json → Option (List α)
  | room + 1, .array xs => xs.mapM (read room)
  | _, _ => none

/-- A statement in JSON. -/
def Statement.toJson : Statement → Json
  | assign x t => .tagged "Assign" (.array [.str x, t.toJson])
  | assume t => .tagged "Assume" t.toJson
  | havoc x => .tagged "Havoc" (.str x)

/-- A statement from JSON. -/
def Statement.ofJson? : Nat → Json → Option Statement
  | room + 2, .object [(some "Assign", .array [x, t])] => do
    let x ← x.string?
    let t ← Term.ofJson? room t
    return assign x t
  | room + 1, .object [(some "Assume", t)] => (Term.ofJson? room t).map assume
  | _ + 1, .object [(some "Havoc", x)] => x.string?.map havoc
  | _, _ => none

/-- A declaration in JSON. -/
def VarDecl.toJson (d : VarDecl) : Json :=
  .fields [("name", .str d.name), ("sort", nameOf VarSort.choices d.sort)]

/-- A declaration from JSON. -/
def VarDecl.ofJson? : Nat → Json → Option VarDecl
  | 0, _ => none
  | room + 1, j =>
    match j.record? ["name", "sort"] with
    | some [some name, some sort] => do
      let name ← name.string?
      let sort ← sort.choice? room VarSort.choices
      return { name, sort }
    | _ => none

/-- An edge in JSON. -/
def EdgeDescription.toJson (e : EdgeDescription) : Json :=
  .fields [("from", .str e.source), ("to", .str e.target),
    ("stmts", .array (e.stmts.map Statement.toJson))]

/-- An edge from JSON; without statements it has none. -/
def EdgeDescription.ofJson? : Nat → Json → Option EdgeDescription
  | 0, _ => none
  | room + 1, j =>
    match j.record? ["from", "to", "stmts"] with
    | some [some source, some target, stmts] => do
      let source ← source.string?
      let target ← target.string?
      let stmts ← match stmts with
        | none => some []
        | some stmts => stmts.list? Statement.ofJson? room
      return { source, target, stmts }
    | _ => none

namespace Description

/-- The number of nested containers a reader opens. -/
def maxNesting : Nat := 127

/-- A description in JSON. -/
def toJson (d : Description) : Json :=
  .fields [("variables", .array (d.decls.map VarDecl.toJson)),
    ("locations", .array (d.locations.map Json.str)), ("entry", .str d.entry),
    ("error", .str d.error), ("edges", .array (d.edges.map EdgeDescription.toJson))]

/-- A description from JSON, opening at most `room` nested containers. -/
def ofJson? : Nat → Json → Option Description
  | 0, _ => none
  | room + 1, j =>
    match j.record? ["variables", "locations", "entry", "error", "edges"] with
    | some [some decls, some locations, some entry, some error, some edges] => do
      let decls ← decls.list? VarDecl.ofJson? room
      let locations ← locations.list? (fun _ => Json.string?) room
      let entry ← entry.string?
      let error ← error.string?
      let edges ← edges.list? EdgeDescription.ofJson? room
      return { decls, locations, entry, error, edges }
    | _ => none

/-- A description from a text. -/
def read? (text : String) : Option Description := do
  ofJson? maxNesting (← Json.read? text)

end Description

/-- Why a text gives no automaton. -/
inductive ReadError where
  /-- The text is no description. -/
  | malformed
  | description (e : DescriptionError)
  deriving DecidableEq

namespace Automaton

/-- An automaton from a text. -/
def read (text : String) : Except ReadError Automaton :=
  match Description.read? text with
  | none => .error .malformed
  | some d =>
    match ofDescription d with
    | .ok a => .ok a
    | .error e => .error (.description e)

/-- The text of an automaton. -/
def write (a : Automaton) : String := a.describe.toJson.pretty

end Automaton

end LoopInvariant
