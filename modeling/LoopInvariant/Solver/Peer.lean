import LoopInvariant.Text.Blank
/-!
# The other end of the pipe

A solver as the process that talks to it sees it: it reads lines and prints lines. What it answers
to its queries is a script, and it may print something of its own after any line, such as an error
in a command that has no answer. So any behaviour of a solver in one run is the behaviour of some
peer.
-/

namespace LoopInvariant.Solver

/-- What a solver does on a query. -/
inductive Reply where
  /-- It prints a text; nothing at all if the text is empty. -/
  | say (text : String)
  /-- It prints a text, and exits at the next request for an echo. -/
  | leave (text : String)
  /-- It stays silent from the next request for an echo on. -/
  | hang
  deriving DecidableEq

/-- What a solver does at a request for an echo. -/
inductive Mood where
  | answering
  | leaving
  | silent
  deriving DecidableEq

/-- A solver. -/
structure Peer where
  /-- Whether it echoes in quotes. -/
  quotes : Bool := false
  /-- What it answers to the coming queries. -/
  script : List Reply := []
  /-- What it prints of its own when it has read a line, by the lines that it has read, the latest
  first. -/
  remarks : List String → String := fun _ => ""
  mood : Mood := .answering
  /-- Whether it still runs. -/
  alive : Bool := true
  /-- Whether it waits forever. -/
  stuck : Bool := false
  /-- The lines that it printed and that were not read yet. -/
  output : List String := []
  /-- The lines that it read, the latest first. -/
  received : List String := []
  /-- The lines that it had read at the last request for an echo, the latest first. -/
  receivedAtEcho : List String := []

namespace Peer

/-- The end marker of an answer. -/
def marker : String := "<<DONE>>"

/-- The command that asks for the marker. -/
def markerCommand : String := "(echo \"" ++ marker ++ "\")"

/-- Whether a line is the marker, bare or in quotes. Blanks at its end do not count. -/
def isMarker (line : String) : Bool :=
  let l := Text.trimEnd line
  l = marker || l = "\"" ++ marker ++ "\""

/-- Whether a line is a query. -/
def isQuery (line : List Char) : Bool :=
  "(check-sat".toList.isPrefixOf line || "(get-value".toList.isPrefixOf line ||
    "(get-info".toList.isPrefixOf line

/-- The text that a line asks to echo. -/
def echo? (line : List Char) : Option String :=
  let opening := "(echo \"".toList
  let closing := "\")".toList
  if opening.isPrefixOf line && closing.isSuffixOf (line.drop opening.length) then
    some (String.ofList ((line.drop opening.length).take
      (line.length - opening.length - closing.length)))
  else none

/-- Print a text, and end its last line. -/
def say (p : Peer) (text : String) : Peer :=
  if text = "" then p else { p with output := p.output ++ Text.lines text }

/-- Answer a query. -/
def answer (p : Peer) : Peer :=
  match p.script with
  | [] => p.say "(error \"script exhausted\")"
  | .say text :: rest => ({ p with script := rest }).say text
  | .leave text :: rest => ({ p with script := rest, mood := .leaving }).say text
  | .hang :: rest => { p with script := rest, mood := .silent }

/-- Meet a request for an echo. -/
def echo (p : Peer) (text : String) : Peer :=
  let p := { p with receivedAtEcho := p.received }
  match p.mood with
  | .answering =>
    { p with output := p.output ++ [if p.quotes then "\"" ++ text ++ "\"" else text] }
  | .leaving => { p with alive := false }
  | .silent => { p with stuck := true }

/-- Read a line. A solver that has exited or that is stuck reads nothing. -/
def readLine (p : Peer) (line : String) : Peer :=
  if !p.alive || p.stuck then p
  else
    let p := { p with received := line :: p.received }
    let p := p.say (p.remarks p.received)
    if isQuery line.toList then p.answer
    else
      match echo? line.toList with
      | some text => p.echo text
      | none => p

/-- Read the lines of a text. -/
def read (p : Peer) (text : String) : Peer := (Text.lines text).foldl readLine p

/-- The lines that it had read at the last request for an echo, in order. -/
def sent (p : Peer) : List String := p.receivedAtEcho.reverse

end Peer

end LoopInvariant.Solver
