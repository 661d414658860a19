import LoopInvariant.Decimal
import LoopInvariant.Sexp
/-!
# Reading s-expressions

The reader takes the first alternative that fits and as much of it as it can. `misses` lists what
was tried in vain, and where: of these the ones furthest into the text make the report of a text
that cannot be read.
-/

namespace LoopInvariant.Sexp

/-- Whether a character may stand between s-expressions. -/
def isBlank (c : Char) : Bool := c = ' ' || c = '\t' || c = '\n' || c = '\r'

/-- Whether a symbol may start with a character. -/
def isSymbolStart (c : Char) : Bool :=
  ('a' ≤ c && c ≤ 'z') || ('A' ≤ c && c ≤ 'Z') ||
    c ∈ ['_', '\'', '<', '>', ':', '=', '$', '@', '+', '-', '*', '/', '~', '^', '&', '?']

/-- Whether a symbol may go on with a character. -/
def isSymbolChar (c : Char) : Bool := isSymbolStart c || c.isDigit || c ∈ ['!', '#', '%', '.']

/-- The text from the next s-expression on. -/
def skipBlanks (cs : List Char) : List Char := cs.dropWhile isBlank

/-- A text between two marks of the same kind. -/
def readBetween (mark : Char) : List Char → Option (Sexp × List Char)
  | [] => none
  | c :: cs =>
    if c = mark then
      match cs.dropWhile (· ≠ mark) with
      | [] => none
      | _ :: rest => some (sym (String.ofList (cs.takeWhile (· ≠ mark))), rest)
    else none

/-- A plain symbol. -/
def readSymbol : List Char → Option (Sexp × List Char)
  | [] => none
  | c :: cs =>
    if isSymbolStart c then
      some (sym (String.ofList (c :: cs.takeWhile isSymbolChar)), cs.dropWhile isSymbolChar)
    else none

/-- A numeral of at most 64 bits. -/
def readNumeral (cs : List Char) : Option (Sexp × List Char) :=
  (Decimal.readWord? (cs.takeWhile Char.isDigit)).map fun n =>
    (num (UInt64.ofNat n), cs.dropWhile Char.isDigit)

/-- A string, a symbol between bars, a plain symbol or a numeral. -/
def readAtom (cs : List Char) : Option (Sexp × List Char) :=
  (readBetween '"' cs).or ((readBetween '|' cs).or ((readSymbol cs).or (readNumeral cs)))

/-- A comment, which has to end its line. -/
def readComment : List Char → Option (Sexp × List Char)
  | ';' :: cs =>
    match cs.dropWhile (· ≠ '\n') with
    | [] => none
    | _ :: rest => some (comment (String.ofList (cs.takeWhile (· ≠ '\n'))), rest)
  | _ => none

mutual

/-- An s-expression at the start of the text, and the rest. The fuel bounds the number of tokens. -/
def readOne : Nat → List Char → Option (Sexp × List Char)
  | 0, _ => none
  | fuel + 1, cs =>
    match (readAtom cs).or (readComment cs) with
    | some r => some r
    | none =>
      match cs with
      | '(' :: cs =>
        match readMany fuel cs with
        | (xs, ')' :: rest) => some (list xs, rest)
        | _ => none
      | _ => none

/-- As many s-expressions as there are, and the rest from the next character that is no blank. -/
def readMany : Nat → List Char → List Sexp × List Char
  | 0, cs => ([], skipBlanks cs)
  | fuel + 1, cs =>
    match readOne fuel (skipBlanks cs) with
    | none => ([], skipBlanks cs)
    | some (x, rest) =>
      let (xs, rest) := readMany fuel rest
      (x :: xs, rest)

end

/-! ## What was expected -/

/-- What a reader may miss. -/
inductive Expected where
  | openParen | closeParen | semicolon | quote | newline | bar | digit | blank
  | notQuote | notNewline | notBar | symbol | numeral | endOfText
  deriving DecidableEq

/-- How it is called in a report. -/
def Expected.label : Expected → String
  | openParen => "\"(\""
  | closeParen => "\")\""
  | semicolon => "\";\""
  | quote => "\"\\\"\""
  | newline => "\"\\n\""
  | bar => "\"|\""
  | digit => "['0'..='9']"
  | blank => "[' ' | '\\t' | '\\n' | '\\r']"
  | notQuote => "[^'\"']"
  | notNewline => "[^'\\n']"
  | notBar => "[^'|']"
  | symbol => "symbol"
  | numeral => "numeral"
  | endOfText => "EOF"

/-- Something missed, and the text from there on. -/
abbrev Miss := List Char × Expected

/-- What is missed by a text after its opening mark. -/
def missesInside (mark : Char) (inner closing : Expected) (cs : List Char) : List Miss :=
  match cs.dropWhile (· ≠ mark) with
  | [] => [([], inner), ([], closing)]
  | rest => [(rest, inner)]

/-- What is missed at the start of a text between marks. -/
def missesBetween (mark : Char) (inner closing : Expected) : List Char → List Miss
  | [] => [([], closing)]
  | c :: cs => if c = mark then missesInside mark inner closing cs else [(c :: cs, closing)]

/-- What is missed by a numeral. -/
def missesNumeral (cs : List Char) : List Miss :=
  let rest := cs.dropWhile Char.isDigit
  if (cs.takeWhile Char.isDigit).isEmpty || (readNumeral cs).isSome then [(rest, .digit)]
  else [(rest, .digit), (rest, .numeral)]

/-- What is missed by an atom. -/
def missesAtom (cs : List Char) : List Miss :=
  missesBetween '"' .notQuote .quote cs ++
    if (readBetween '"' cs).isSome then []
    else
      missesBetween '|' .notBar .bar cs ++
        if (readBetween '|' cs).isSome then []
        else if (readSymbol cs).isSome then []
        else (cs, .symbol) :: missesNumeral cs

/-- What is missed by a comment. -/
def missesComment : List Char → List Miss
  | ';' :: cs => missesInside '\n' .notNewline .newline cs
  | cs => [(cs, .semicolon)]

mutual

/-- What is missed by an s-expression. -/
def missesOne : Nat → List Char → List Miss
  | 0, _ => []
  | fuel + 1, cs =>
    missesAtom cs ++
      if (readAtom cs).isSome then []
      else
        missesComment cs ++
          if (readComment cs).isSome then []
          else
            match cs with
            | '(' :: cs =>
              missesMany fuel cs ++
                match (readMany fuel cs).2 with
                | ')' :: _ => []
                | rest => [(rest, .closeParen)]
            | cs => [(cs, .openParen)]

/-- What is missed by a sequence. -/
def missesMany : Nat → List Char → List Miss
  | 0, _ => []
  | fuel + 1, cs =>
    let cs := skipBlanks cs
    (cs, .blank) :: missesOne fuel cs ++
      match readOne fuel cs with
      | none => []
      | some (_, rest) => missesMany fuel rest

end

/-- A text that cannot be read: where, in lines and columns from one and in bytes from zero, and
what was expected there. -/
structure ReadError where
  line : Nat
  column : Nat
  offset : Nat
  expected : List String
  deriving DecidableEq

/-- The report of an error. -/
def ReadError.message (e : ReadError) : String :=
  let wanted := match e.expected with
    | [one] => one
    | several => "one of " ++ ", ".intercalate several
  "error at " ++ toString e.line ++ ":" ++ toString e.column ++ ": expected " ++ wanted

/-- The report of the misses furthest into the text. -/
def ReadError.ofMisses (text : List Char) (misses : List Miss) : ReadError :=
  let left := misses.foldl (fun n m => min n m.1.length) text.length
  let before := text.take (text.length - left)
  let labels := (misses.filter fun m => m.1.length = left).map fun m => m.2.label
  { line := before.count '\n' + 1
    column := (before.reverse.takeWhile (· ≠ '\n')).length + 1
    offset := (String.ofList before).utf8ByteSize
    expected := (SortedSet.ofList labels).toList }

/-- Enough fuel for a text. -/
def fuelFor (cs : List Char) : Nat := 2 * cs.length + 2

/-- The text has to end here. -/
def missesEnd : List Char → List Miss
  | [] => []
  | cs => [(cs, .endOfText)]

/-- Read one s-expression, with blanks around it. -/
def read (text : String) : Except ReadError Sexp :=
  let cs := text.toList
  let start := skipBlanks cs
  match readOne (fuelFor cs) start with
  | some (x, rest) =>
    let rest' := skipBlanks rest
    if rest' = [] then .ok x
    else
      .error (.ofMisses cs
        ((start, .blank) :: missesOne (fuelFor cs) start ++ (rest', .blank) :: missesEnd rest'))
  | none => .error (.ofMisses cs ((start, .blank) :: missesOne (fuelFor cs) start))

/-- Read a sequence of s-expressions. -/
def readAll (text : String) : Except ReadError (List Sexp) :=
  let cs := text.toList
  match readMany (fuelFor cs) cs with
  | (xs, []) => .ok xs
  | (_, rest) => .error (.ofMisses cs (missesMany (fuelFor cs) cs ++ missesEnd rest))

end LoopInvariant.Sexp
