import LoopInvariant.Automaton
/-!
# Where a description is wrong

An error in a description is shown at a name in the text: at its second occurrence if it is declared
twice, else at its first. A name that is written with escapes is not found.
-/

namespace LoopInvariant.CommandLine

/-- A place in a text, counting lines and characters from one. -/
structure Position where
  line : Nat
  column : Nat
  deriving DecidableEq

/-- The place after some text. -/
def Position.after (before : List Char) : Position where
  line := before.count '\n' + 1
  column := (before.reverse.takeWhile (· ≠ '\n')).length + 1

/-- Where a word occurs in a text, without overlaps: how many characters stand before each.
Characters of an occurrence that was found are skipped. -/
def occurrences (word : List Char) : List Char → Nat → Nat → List Nat
  | [], _, _ => []
  | c :: cs, at', skip =>
    if 0 < skip then occurrences word cs (at' + 1) (skip - 1)
    else if word.isPrefixOf (c :: cs) then at' :: occurrences word cs (at' + 1) (word.length - 1)
    else occurrences word cs (at' + 1) 0

/-- The name that an error is about, and whether it is declared twice. -/
def subject : DescriptionError → String × Bool
  | .duplicateLocation name => (name, true)
  | .unknownLocation name => (name, false)
  | .duplicateVariable name => (name, true)
  | .reservedName name => (name, false)
  | .unknownVariable name .. => (name, false)

/-- Where to show an error in a text. -/
def locate? (e : DescriptionError) (text : String) : Option Position :=
  let (name, twice) := subject e
  let found := occurrences ("\"" ++ name ++ "\"").toList text.toList 0 0
  let place := if twice then found[1]?.or found.head? else found.head?
  place.map fun n => .after (text.toList.take n)

end LoopInvariant.CommandLine
