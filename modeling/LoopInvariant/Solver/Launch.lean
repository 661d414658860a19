import LoopInvariant.Text.Capital
/-!
# Solver launch commands

What is needed to start a solver: the program, its arguments, and the options and the logic that it
is told first. Also how a program is looked up.
-/

namespace LoopInvariant.Solver

/-- The invocation of a solver. -/
structure Launch where
  program : String
  args : List String := []
  options : List (String × String) := []
  logic : String := "QF_LIA"
  deriving DecidableEq

namespace Launch

/-- Set an option. An earlier value is dropped, and the option moves to the end. -/
def option (l : Launch) (name value : String) : Launch :=
  { l with options := l.options.filter (fun o => o.1 ≠ name) ++ [(name, value)] }

/-- The command line. An argument with a blank stands in quotes. -/
def commandLine (l : Launch) : String :=
  let quoted (a : String) : String := if ' ' ∈ a.toList then "\"" ++ a ++ "\"" else a
  " ".intercalate (l.program :: l.args.map quoted)

end Launch

/-- The solvers that are known. -/
inductive Family where
  | z3
  | cvc5
  deriving DecidableEq

namespace Family

/-- The usual name of the program. -/
def program : Family → String
  | z3 => "z3"
  | cvc5 => "cvc5"

/-- The solver reading commands from its input. -/
def launch (f : Family) (path : String) : Launch :=
  match f with
  | z3 => { program := path, args := ["-in", "-smt2"], options := [("model.completion", "true")] }
  | cvc5 =>
    { program := path
      args := ["-q", "--lang", "smt2"]
      options := [("interactive", "false"), ("incremental", "true")] }

/-- Set the time for a query in milliseconds. Without one, Z3 is left as it is and CVC5 is told that
there is no limit. -/
def timeout (f : Family) (ms : Option Nat) (l : Launch) : Launch :=
  match f, ms with
  | z3, none => l
  | z3, some ms => l.option "timeout" (toString ms)
  | cvc5, ms => l.option "tlimit-per" (toString (ms.getD 0))

/-- Set the seed of random choices. -/
def seed (f : Family) (n : Nat) (l : Launch) : Launch :=
  match f with
  | z3 => l.option "smt.random_seed" (toString n)
  | cvc5 => l.option "seed" (toString n)

/-- The command for a session: constants stay declared when a scope is closed, and the seed 0 leaves
the solver's own choice. -/
def session (f : Family) (path : String) (ms : Option Nat) (n : Nat) : Launch :=
  let l := f.timeout ms (f.launch path)
  (if n = 0 then l else f.seed n l).option "global-declarations" "true"

end Family

/-! ## Looking up programs -/

/-- The environment variable that says where a solver is. -/
def pathVariable (name : String) : String := Text.capitals name ++ "_BIN"

/-- Where a solver is: what the environment says, or the name itself. -/
def path (environment : String → Option String) (name : String) : String :=
  (environment (pathVariable name)).getD name

/-- Where a solver is, if it can be run there. -/
def find? (environment : String → Option String) (runs : String → Bool) (name : String) :
    Option String :=
  let p := path environment name
  if runs p then some p else none

end LoopInvariant.Solver
