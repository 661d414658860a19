import LoopInvariant.Decimal
/-!
# JSON texts

A strict reader: no comments, no trailing commas, no raw control characters in strings, no leading
zeros. The tree keeps an object's fields in the order of the text, repetitions included, and keeps
apart what a later reading may refuse: numbers that are not plain integers, and strings whose
escapes do not form Unicode text.
-/

namespace LoopInvariant

/-- A JSON text as a tree. -/
inductive Json where
  | null
  | bool (b : Bool)
  /-- A number written as a plain integer. -/
  | int (i : Int)
  /-- Any other number: one with a fraction or an exponent, or a negative zero. -/
  | real
  /-- A string; there is no text when surrogate escapes do not pair up. -/
  | string (text : Option String)
  | array (items : List Json)
  | object (fields : List (Option String × Json))

instance : Inhabited Json := ⟨.null⟩

namespace Json

/-- The string of a text. -/
def str (s : String) : Json := .string (some s)

/-- Whether a character may stand between tokens. -/
def isBlank (c : Char) : Bool := c = ' ' || c = '\n' || c = '\t' || c = '\r'

/-- The rest of the text from the next token on. -/
def skipBlanks (cs : List Char) : List Char := cs.dropWhile isBlank

/-- The value of a hexadecimal digit. -/
def hexDigit? (c : Char) : Option Nat :=
  if '0' ≤ c ∧ c ≤ '9' then some (c.toNat - 48)
  else if 'a' ≤ c ∧ c ≤ 'f' then some (c.toNat - 87)
  else if 'A' ≤ c ∧ c ≤ 'F' then some (c.toNat - 55)
  else none

/-- The character of a one-letter escape. -/
def escape? : Char → Option Char
  | '"' => some '"'
  | '\\' => some '\\'
  | '/' => some '/'
  | 'b' => some '\x08'
  | 'f' => some '\x0c'
  | 'n' => some '\n'
  | 'r' => some '\r'
  | 't' => some '\t'
  | _ => none

/-- The code units of a string literal up to its closing quote, and the rest of the text. A raw
character counts as its code point. -/
def readUnits : List Char → Option (List Nat × List Char)
  | [] => none
  | '"' :: rest => some ([], rest)
  | '\\' :: 'u' :: a :: b :: c :: d :: rest =>
    match hexDigit? a, hexDigit? b, hexDigit? c, hexDigit? d with
    | some a, some b, some c, some d =>
      (readUnits rest).map fun (us, r) => ((((a * 16 + b) * 16 + c) * 16 + d) :: us, r)
    | _, _, _, _ => none
  | '\\' :: e :: rest =>
    match escape? e with
    | some c => (readUnits rest).map fun (us, r) => (c.toNat :: us, r)
    | none => none
  | c :: rest =>
    if c = '\\' ∨ c.toNat < 32 then none
    else (readUnits rest).map fun (us, r) => (c.toNat :: us, r)

/-- Whether a code unit is the first half of a surrogate pair. -/
def isHigh (u : Nat) : Bool := 0xD800 ≤ u && u < 0xDC00

/-- Whether a code unit is the second half of a surrogate pair. -/
def isLow (u : Nat) : Bool := 0xDC00 ≤ u && u < 0xE000

/-- The characters of code units; surrogates have to come in pairs. -/
def charsOfUnits : List Nat → Option (List Char)
  | [] => some []
  | [u] => if isHigh u || isLow u then none else some [Char.ofNat u]
  | u :: v :: rest =>
    if isHigh u then
      if isLow v then
        (charsOfUnits rest).map (Char.ofNat (0x10000 + (u - 0xD800) * 0x400 + (v - 0xDC00)) :: ·)
      else none
    else if isLow u then none
    else (charsOfUnits (v :: rest)).map (Char.ofNat u :: ·)

/-- A string literal after its opening quote. -/
def readString (cs : List Char) : Option (Option String × List Char) :=
  (readUnits cs).map fun (us, rest) => ((charsOfUnits us).map String.ofList, rest)

/-- The rest after a fraction, if there is one. -/
def skipFraction : List Char → Option (Bool × List Char)
  | '.' :: cs =>
    match cs.takeWhile Char.isDigit with
    | [] => none
    | _ => some (true, cs.dropWhile Char.isDigit)
  | cs => some (false, cs)

/-- The rest after the digits of an exponent. -/
def skipExponentDigits (cs : List Char) : Option (Bool × List Char) :=
  match cs.takeWhile Char.isDigit with
  | [] => none
  | _ => some (true, cs.dropWhile Char.isDigit)

/-- The rest after an exponent, if there is one. -/
def skipExponent : List Char → Option (Bool × List Char)
  | 'e' :: '+' :: cs | 'e' :: '-' :: cs | 'E' :: '+' :: cs | 'E' :: '-' :: cs =>
    skipExponentDigits cs
  | 'e' :: cs | 'E' :: cs => skipExponentDigits cs
  | cs => some (false, cs)

/-- An unsigned number: a run of digits that starts with zero only if it is zero, then perhaps a
fraction and an exponent. -/
def readNumber (negative : Bool) (cs : List Char) : Option (Json × List Char) :=
  let digits := cs.takeWhile Char.isDigit
  let rest := cs.dropWhile Char.isDigit
  match Decimal.read? digits with
  | none => none
  | some n =>
    if digits.head? = some '0' ∧ digits ≠ ['0'] then none
    else
      match skipFraction rest with
      | none => none
      | some (fraction, rest) =>
        match skipExponent rest with
        | none => none
        | some (exponent, rest) =>
          let value :=
            if fraction || exponent then real
            else if negative then (if n = 0 then real else int (-n))
            else int n
          some (value, rest)

mutual

/-- A value at the start of the text, and the rest. The fuel bounds the number of tokens. -/
def readValue : Nat → List Char → Option (Json × List Char)
  | 0, _ => none
  | fuel + 1, cs =>
    match skipBlanks cs with
    | 'n' :: 'u' :: 'l' :: 'l' :: rest => some (null, rest)
    | 't' :: 'r' :: 'u' :: 'e' :: rest => some (bool true, rest)
    | 'f' :: 'a' :: 'l' :: 's' :: 'e' :: rest => some (bool false, rest)
    | '"' :: rest => (readString rest).map fun (s, rest) => (string s, rest)
    | '[' :: rest =>
      match skipBlanks rest with
      | ']' :: rest => some (array [], rest)
      | rest => (readItems fuel rest).map fun (items, rest) => (array items, rest)
    | '\x7b' :: rest =>
      match skipBlanks rest with
      | '\x7d' :: rest => some (object [], rest)
      | rest => (readFields fuel rest).map fun (fields, rest) => (object fields, rest)
    | '-' :: rest => readNumber true rest
    | rest => readNumber false rest

/-- The items of an array that has some, up to its closing bracket. -/
def readItems : Nat → List Char → Option (List Json × List Char)
  | 0, _ => none
  | fuel + 1, cs =>
    match readValue fuel cs with
    | none => none
    | some (item, rest) =>
      match skipBlanks rest with
      | ']' :: rest => some ([item], rest)
      | ',' :: rest => (readItems fuel rest).map fun (items, rest) => (item :: items, rest)
      | _ => none

/-- The fields of an object that has some, up to its closing brace. -/
def readFields : Nat → List Char → Option (List (Option String × Json) × List Char)
  | 0, _ => none
  | fuel + 1, cs =>
    match skipBlanks cs with
    | '"' :: rest =>
      match readString rest with
      | none => none
      | some (key, rest) =>
        match skipBlanks rest with
        | ':' :: rest =>
          match readValue fuel rest with
          | none => none
          | some (value, rest) =>
            match skipBlanks rest with
            | '\x7d' :: rest => some ([(key, value)], rest)
            | ',' :: rest =>
              (readFields fuel rest).map fun (fields, rest) => ((key, value) :: fields, rest)
            | _ => none
        | _ => none
    | _ => none

end

/-- The tree of a whole text, if it is strict JSON. -/
def read? (text : String) : Option Json :=
  let cs := text.toList
  match readValue (2 * cs.length + 2) cs with
  | none => none
  | some (value, rest) => if skipBlanks rest = [] then some value else none

/-! ## How texts go on -/

theorem readUnits_quote (rest : List Char) : readUnits ('"' :: rest) = some ([], rest) := by
  rw [readUnits]

theorem skipBlanks_cons {c : Char} (h : isBlank c = false) (cs : List Char) :
    skipBlanks (c :: cs) = c :: cs :=
  List.dropWhile_cons_of_neg (by simp [h])

theorem isBlank_of_isDigit {c : Char} (h : c.isDigit = true) : isBlank c = false := by
  apply Bool.eq_false_iff.2
  intro hblank
  simp only [isBlank, Bool.or_eq_true, decide_eq_true_eq] at hblank
  rcases hblank with ((rfl | rfl) | rfl) | rfl <;> cases h

theorem readValue_of_isDigit {fuel : Nat} {c : Char} {cs : List Char} (h : c.isDigit = true) :
    readValue (fuel + 1) (c :: cs) = readNumber false (c :: cs) := by
  rw [readValue, skipBlanks_cons (isBlank_of_isDigit h)]
  split
  case h_8 => rfl
  all_goals
    next heq =>
      cases heq
      cases h

end Json

end LoopInvariant
