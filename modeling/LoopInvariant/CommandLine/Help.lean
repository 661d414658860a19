import LoopInvariant.Text.Blank
/-!
# Help

What the program prints when it is asked for help: what a command is for, how it is called, and a
table of its arguments for each kind.
-/

namespace LoopInvariant.CommandLine

/-- What help can be asked for. -/
inductive Topic where
  /-- The program. -/
  | program
  /-- Inference. -/
  | infer
  /-- Printing. -/
  | print
  /-- Asking for help. -/
  | help
  deriving DecidableEq

/-- A table under a heading. An entry has a name and an explanation. -/
structure HelpTable where
  heading : String
  entries : List (String × String)

namespace HelpTable

/-- The length of the longest name. -/
def nameWidth (t : HelpTable) : Nat := t.entries.foldr (fun e w => max e.1.length w) 0

/-- The line of an entry. The explanations of a table start in the same column. -/
def row (t : HelpTable) (e : String × String) : String :=
  "  " ++ e.1 ++ String.ofList (List.replicate (t.nameWidth - e.1.length) ' ') ++ "  " ++ e.2

/-- The lines of a table, after a blank one. -/
def rows (t : HelpTable) : List String := "" :: (t.heading ++ ":") :: t.entries.map t.row

end HelpTable

namespace Topic

/-- What a command is for. -/
def about : Topic → String
  | program =>
    "Loop invariant inference for control-flow automata " ++
      "by learning from implication counterexamples"
  | infer => "Infer loop invariants proving the error location unreachable"
  | print => "Print the Horn clauses of an automaton and their dependencies"
  | help => "Print this message or the help of the given subcommand(s)"

/-- How a command is called. -/
def call : Topic → String
  | program => "[OPTIONS] <COMMAND>"
  | infer => "infer [OPTIONS] <FILE>"
  | print => "print <FILE>"
  | help => "help [COMMAND]..."

/-- The file that a command reads. -/
def fileTable : HelpTable := ⟨"Arguments", [("<FILE>", "File name for a JSON automaton")]⟩

/-- The option that asks for help. -/
def helpOption : String × String := ("-h, --help", "Print help")

/-- The tables of a command. -/
def tables : Topic → List HelpTable
  | program =>
    [⟨"Commands", [("infer", about infer), ("print", about print), ("help", about help)]⟩,
      ⟨"Options",
        [("    --color <COLOR>", "[default: auto] [possible values: never, auto, always]"),
          helpOption]⟩]
  | infer =>
    [fileTable,
      ⟨"Options",
        [("    --solver <SOLVER>",
            "Solver to use [default: z3] [possible values: z3, cvc5, bounded]"),
          ("    --bound-radius <BOUND_RADIUS>",
            "Integers range over [-radius, radius] with the bounded solver [default: 8]"),
          ("    --smt <SMT>", "Directory to save the SMT queries of each session to"),
          ("    --timeout <TIMEOUT>",
            "SMT solver timeout in seconds (0 for none) [default: 600]"),
          ("    --solver-seed <SOLVER_SEED>", "SMT solver random seed [default: 0]"),
          ("    --learners <LEARNERS>",
            "Number of learners (more than one runs them concurrently) [default: 1]"),
          ("    --teachers <TEACHERS>",
            "Number of teachers, each with its own solver " ++
              "(more than one runs them concurrently) [default: 1]"),
          ("    --atoms", "Let learners split on the comparisons occurring in the program"),
          ("    --verify", "Check the inferred invariants again with a fresh solver"),
          helpOption]⟩]
  | print => [fileTable, ⟨"Options", [helpOption]⟩]
  | help => [⟨"Arguments", [("[COMMAND]...", "Print help for the subcommand(s)")]⟩]

/-- The help on a topic. -/
def text (t : Topic) : String :=
  Text.unlines ([t.about, "", "Usage: ice-verifier " ++ t.call] ++ t.tables.flatMap HelpTable.rows)

end Topic

end LoopInvariant.CommandLine
