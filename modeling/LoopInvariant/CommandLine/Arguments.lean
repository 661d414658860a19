import LoopInvariant.CommandLine.Help
import LoopInvariant.Decimal
import LoopInvariant.Inference
/-!
# Command-line arguments

Options are long. A value stands after an equals sign or in the next argument, which then must not
look like an option. Every option is given at most once, and after two dashes there are none. Help
may be asked for anywhere: what stands after that does not count, but what stands before has to be
right as far as it goes.
-/

namespace LoopInvariant.CommandLine

/-- The arguments of inference. -/
structure InferOptions where
  config : InferenceConfig := {}
  solver : SolverConfig := { backend := .family .z3, timeout := some 600000 }
  /-- Whether the invariants are checked again. -/
  verify : Bool := false
  file : String

/-- What to do. -/
inductive Command where
  /-- Infer invariants. -/
  | infer (o : InferOptions)
  /-- Print the clauses. -/
  | print (file : String)

/-- The file that a command reads. -/
def Command.file : Command → String
  | infer o => o.file
  | print file => file

/-- What arguments ask for. -/
inductive Request where
  /-- Run a command. -/
  | run (c : Command)
  /-- Print help. -/
  | help (t : Topic)

/-- An argument list taken apart: options with their values, and the rest. -/
structure Parsed where
  options : List (String × Option String) := []
  positional : List String := []
  /-- Whether help is asked for. -/
  help : Bool := false

/-- Whether an argument looks like an option. A lone dash does not. -/
def isOption (arg : String) : Bool :=
  match arg.toList with
  | '-' :: _ :: _ => true
  | _ => false

/-- Whether an argument asks for help. The short option may have others behind it. -/
def isHelp (arg : String) : Bool := arg = "--help" || arg.startsWith "-h"

/-- Split a long option at the first equals sign. -/
def splitOption? (arg : String) : Option (String × Option String) :=
  match arg.toList with
  | '-' :: '-' :: cs =>
    let name := String.ofList (cs.takeWhile (· ≠ '='))
    match cs.dropWhile (· ≠ '=') with
    | [] => some (name, none)
    | _ :: value => some (name, some (String.ofList value))
  | _ => none

/-- Take arguments apart, given the options with a value and those without. -/
def parse? (valued flags : List String) : List String → Option Parsed
  | [] => some {}
  | "--" :: rest => some { positional := rest }
  | arg :: rest =>
    if isHelp arg then some { help := true }
    else if isOption arg then do
      let (name, value?) ← splitOption? arg
      if name ∈ valued then
        match value?, rest with
        | some value, rest =>
          let p ← parse? valued flags rest
          some { p with options := (name, some value) :: p.options }
        | none, value :: rest =>
          if isOption value then none
          else
            let p ← parse? valued flags rest
            some { p with options := (name, some value) :: p.options }
        | none, [] => none
      else if name ∈ flags ∧ value?.isNone then
        let p ← parse? valued flags rest
        some { p with options := (name, none) :: p.options }
      else none
    else do
      let p ← parse? valued flags rest
      some { p with positional := arg :: p.positional }

namespace Parsed

/-- Whether no option is given twice. -/
def isSingle (p : Parsed) : Bool := (p.options.map (·.1)).eraseDups.length = p.options.length

/-- Whether an option is given. -/
def has (p : Parsed) (name : String) : Bool := p.options.any fun o => o.1 = name

/-- The value of an option, read in some way. The default stands if it is not given. -/
def value? {α : Type} (p : Parsed) (name : String) (read? : String → Option α) (default : α) :
    Option α :=
  match p.options.find? fun o => o.1 = name with
  | some (_, some v) => read? v
  | some (_, none) => none
  | none => some default

/-- The request of a command that reads one file, unless help is asked for. -/
def request? (p : Parsed) (topic : Topic) (command : String → Command) : Option Request :=
  match p.positional with
  | [] => if p.help then some (.help topic) else none
  | [file] => some (if p.help then .help topic else .run (command file))
  | _ => none

end Parsed

/-- The values of a choice. -/
def choice? {α : Type} (choices : List (String × α)) (v : String) : Option α :=
  (choices.find? fun c => c.1 = v).map (·.2)

/-- The choices of a solver; for the bounded one the radius is given apart. -/
def solvers (radius : Int64) : List (String × Backend) :=
  [("z3", .family .z3), ("cvc5", .family .cvc5), ("bounded", .bounded radius)]

/-- The arguments after the name of inference. -/
def inferRequest? (args : List String) : Option Request := do
  let p ← parse? ["solver", "bound-radius", "smt", "timeout", "solver-seed", "learners", "teachers"]
    ["atoms", "verify"] args
  if !p.isSingle then none
  else
    let count (v : String) : Option Nat := Decimal.readUnsigned? v.toList
    let radius ← p.value? "bound-radius" (fun v => Decimal.readSigned? v.toList) 8
    let backend ← p.value? "solver" (choice? (solvers radius)) (.family .z3)
    let seconds ← p.value? "timeout" count 600
    let seed ← p.value? "solver-seed" count 0
    let directory ← p.value? "smt" (fun v => if v.isEmpty then none else some v) ""
    let learners ← p.value? "learners" count 1
    let teachers ← p.value? "teachers" count 1
    p.request? .infer fun file =>
      .infer
        { config := { learners, teachers, useAtoms := p.has "atoms" }
          solver :=
            { backend
              timeout := if seconds = 0 then none else some (seconds * 1000)
              seed
              transcript := !directory.isEmpty }
          verify := p.has "verify"
          file }

/-- The arguments after the name of printing. -/
def printRequest? (args : List String) : Option Request := do
  (← parse? [] [] args).request? .print .print

/-- The names of commands after a wish for help. -/
def helpTopic? : List String → Option Topic
  | [] => some .program
  | ["infer"] => some .infer
  | ["print"] => some .print
  | ["help"] => some .help
  | _ => none

/-- The arguments from the name of the command on. -/
def request? : List String → Option Request
  | "infer" :: args => inferRequest? args
  | "print" :: args => printRequest? args
  | "help" :: args => (helpTopic? args).map .help
  | arg :: _ => if isHelp arg then some (.help .program) else none
  | [] => none

/-- The choices of when to use colours. -/
def colours : List String := ["never", "auto", "always"]

/-- Read all arguments. Colours may be chosen before the name of the command. -/
def read? : List String → Option Request
  | "--color" :: value :: args => if value ∈ colours then request? args else none
  | arg :: args =>
    match splitOption? arg with
    | some ("color", some value) => if value ∈ colours then request? args else none
    | _ => request? (arg :: args)
  | [] => none

end LoopInvariant.CommandLine
