import LoopInvariant.Sexp
import LoopInvariant.SortedSet
/-!
# Transcripts

What was sent to a solver, with comments, so that a query can be replayed by hand.
-/

namespace LoopInvariant.Solver

/-- A transcript, and the texts saved from it so far. -/
structure Transcript where
  /-- What was recorded, in order. -/
  entries : List Sexp := []
  /-- Whether there is a place to save to. -/
  writable : Bool := true
  /-- What was saved. The same text is saved once. -/
  saved : SortedSet String := SortedSet.ofList []

namespace Transcript

/-- Record a command or a comment. -/
def append (t : Transcript) (x : Sexp) : Transcript := { t with entries := t.entries ++ [x] }

/-- Record a comment after an empty line. -/
def annotate (t : Transcript) (note : String) : Transcript :=
  (t.append (.comment "")).append (.comment note)

/-- A recorded line. An empty comment is an empty line. -/
def line : Sexp → String
  | .comment s => if s = "" then "" else ";; " ++ s
  | x => x.print

/-- The text of a transcript. -/
def render (t : Transcript) : String := String.join (t.entries.map fun x => line x ++ "\n")

/-- Save what was recorded so far. -/
def save (t : Transcript) : Option String × Transcript :=
  if t.writable then (some t.render, { t with saved := t.saved.insert t.render }) else (none, t)

end Transcript

end LoopInvariant.Solver
