import LoopInvariant.Json
/-!
# Printing JSON

Strings are escaped as little as the format allows. `pretty` puts every item and field on a line of
its own, indented by two blanks per level; `compact` writes no blanks at all.
-/

namespace LoopInvariant.Json

/-- The lower-case hexadecimal digit of a number below sixteen. -/
def hexChar (n : Nat) : Char := if n < 10 then Char.ofNat (48 + n) else Char.ofNat (87 + n)

/-- A character inside a string literal. -/
def escapeChar (c : Char) : List Char :=
  if c = '"' then ['\\', '"']
  else if c = '\\' then ['\\', '\\']
  else if c = '\x08' then ['\\', 'b']
  else if c = '\x0c' then ['\\', 'f']
  else if c = '\n' then ['\\', 'n']
  else if c = '\r' then ['\\', 'r']
  else if c = '\t' then ['\\', 't']
  else if c.toNat < 32 then
    ['\\', 'u', '0', '0', hexChar (c.toNat / 16), hexChar (c.toNat % 16)]
  else [c]

/-- A string literal. -/
def quote (s : String) : List Char := '"' :: s.toList.flatMap escapeChar ++ ['"']

/-- An integer numeral. -/
def intChars (i : Int) : List Char :=
  match i with
  | .ofNat n => Decimal.write n
  | .negSucc n => '-' :: Decimal.write (n + 1)

/-- A literal that needs no layout. A string without text is written empty, a number that is no
plain integer as a negative zero. -/
def scalarChars : Json → List Char
  | null => "null".toList
  | bool b => (if b then "true" else "false").toList
  | int i => intChars i
  | real => ['-', '0']
  | string s => quote (s.getD "")
  | array _ | object _ => []

/-- A new line indented to a level. -/
def newline (level : Nat) : List Char := '\n' :: List.replicate (2 * level) ' '

mutual

/-- A value laid out at a level of indentation. -/
def prettyChars (level : Nat) : Json → List Char
  | array [] => ['[', ']']
  | array (x :: xs) =>
    '[' :: newline (level + 1) ++ prettyChars (level + 1) x ++ prettyItems (level + 1) xs
      ++ newline level ++ [']']
  | object [] => ['\x7b', '\x7d']
  | object ((k, x) :: fs) =>
    '\x7b' :: newline (level + 1) ++ quote (k.getD "") ++ [':', ' '] ++ prettyChars (level + 1) x
      ++ prettyFields (level + 1) fs ++ newline level ++ ['\x7d']
  | j => scalarChars j

/-- The items after the first. -/
def prettyItems (level : Nat) : List Json → List Char
  | [] => []
  | x :: xs => ',' :: newline level ++ prettyChars level x ++ prettyItems level xs

/-- The fields after the first. -/
def prettyFields (level : Nat) : List (Option String × Json) → List Char
  | [] => []
  | (k, x) :: fs =>
    ',' :: newline level ++ quote (k.getD "") ++ [':', ' '] ++ prettyChars level x
      ++ prettyFields level fs

end

/-- A value with every item and field on its own line. -/
def pretty (j : Json) : String := String.ofList (prettyChars 0 j)

mutual

/-- A value on one line. -/
def compactChars : Json → List Char
  | array xs => '[' :: compactItems xs
  | object fs => '\x7b' :: compactFields fs
  | j => scalarChars j

/-- The items of an array and its closing bracket. -/
def compactItems : List Json → List Char
  | [] => [']']
  | [x] => compactChars x ++ [']']
  | x :: xs => compactChars x ++ ',' :: compactItems xs

/-- The fields of an object and its closing brace. -/
def compactFields : List (Option String × Json) → List Char
  | [] => ['\x7d']
  | [(k, x)] => quote (k.getD "") ++ ':' :: compactChars x ++ ['\x7d']
  | (k, x) :: fs => quote (k.getD "") ++ ':' :: compactChars x ++ ',' :: compactFields fs

end

/-- A value without blanks. -/
def compact (j : Json) : String := String.ofList (compactChars j)

end LoopInvariant.Json
