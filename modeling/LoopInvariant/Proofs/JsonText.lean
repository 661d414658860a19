import LoopInvariant.Json.Printer
import Mathlib.Tactic.Common
/-!
# Reading what was printed

A tree that is laid out as a text is read back from it as it was, whatever characters its strings
hold and however large its integers are. Trees that stand for no one text are left out: numbers that
are no plain integers, and strings whose escapes form no Unicode text.

The reader goes on after a value with what follows it. So the statement for a value speaks of any text
that may follow: in a layout that is nothing, a comma or a new line, none of which prolongs a number.
-/

namespace LoopInvariant.Json

/-- A tree whose numbers are plain integers and whose strings and keys have a text. -/
inductive Plain : Json → Prop where
  | null : Plain .null
  | bool (b : Bool) : Plain (.bool b)
  | int (i : Int) : Plain (.int i)
  | str (s : String) : Plain (.str s)
  | array {xs : List Json} (h : ∀ x ∈ xs, Plain x) : Plain (.array xs)
  | object {fs : List (Option String × Json)} (hkeys : ∀ f ∈ fs, f.1.isSome = true)
      (h : ∀ f ∈ fs, Plain f.2) : Plain (.object fs)

/-! ## Strings -/

theorem hexDigit?_hexChar {n : Nat} (h : n < 16) : hexDigit? (hexChar n) = some n := by
  revert n
  decide

/-- No one-letter escape is taken for the start of a longer one. -/
theorem readUnits_letter {e c : Char} (h : escape? e = some c) (rest : List Char) :
    readUnits ('\\' :: e :: rest) = (readUnits rest).map fun r => (c.toNat :: r.1, r.2) := by
  rw [readUnits]
  · rw [h]
  · rintro _ _ _ _ _ rfl -
    cases h

theorem readUnits_escapeChar (c : Char) (rest : List Char) :
    readUnits (escapeChar c ++ rest) = (readUnits rest).map fun r => (c.toNat :: r.1, r.2) := by
  rw [escapeChar]
  split_ifs with hquote hslash hb hf hn hr ht hlow
  · subst hquote
    exact readUnits_letter rfl rest
  · subst hslash
    exact readUnits_letter rfl rest
  · subst hb
    exact readUnits_letter rfl rest
  · subst hf
    exact readUnits_letter rfl rest
  · subst hn
    exact readUnits_letter rfl rest
  · subst hr
    exact readUnits_letter rfl rest
  · subst ht
    exact readUnits_letter rfl rest
  · have hhigh : hexDigit? (hexChar (c.toNat / 16)) = some (c.toNat / 16) :=
      hexDigit?_hexChar (by omega)
    have hrest : hexDigit? (hexChar (c.toNat % 16)) = some (c.toNat % 16) :=
      hexDigit?_hexChar (by omega)
    have hzero : hexDigit? '0' = some 0 := rfl
    have hvalue : ((0 * 16 + 0) * 16 + c.toNat / 16) * 16 + c.toNat % 16 = c.toNat := by omega
    simp only [List.cons_append, List.nil_append, readUnits, hzero, hhigh, hrest, hvalue]
  · simp only [List.cons_append, List.nil_append]
    rw [readUnits]
    · rw [if_neg (by simp [hslash, hlow])]
    · exact hquote
    · exact fun _ _ _ _ _ h _ => hslash h
    · exact fun _ _ h _ => hslash h

theorem readUnits_flatMap (cs rest : List Char) :
    readUnits (cs.flatMap escapeChar ++ '"' :: rest) = some (cs.map Char.toNat, rest) := by
  induction cs with
  | nil => exact readUnits_quote rest
  | cons c cs ih =>
    rw [List.flatMap_cons, List.append_assoc, readUnits_escapeChar, ih]
    rfl

theorem not_surrogate (c : Char) : isHigh c.toNat = false ∧ isLow c.toNat = false := by
  have hvalid : c.toNat < 0xD800 ∨ 0xDFFF < c.toNat ∧ c.toNat < 0x110000 := c.valid
  simp only [isHigh, isLow, Bool.and_eq_false_iff, decide_eq_false_iff_not]
  omega

theorem charsOfUnits_map (cs : List Char) : charsOfUnits (cs.map Char.toNat) = some cs := by
  induction cs with
  | nil => rfl
  | cons c cs ih =>
    obtain ⟨hhigh, hlow⟩ := not_surrogate c
    cases cs with
    | nil => simp [charsOfUnits, hhigh, hlow, Char.ofNat_toNat]
    | cons d cs =>
      rw [List.map_cons] at ih
      simp [charsOfUnits, hhigh, hlow, ih, Char.ofNat_toNat]

theorem readString_quote (s : String) (rest : List Char) :
    readString (s.toList.flatMap escapeChar ++ '"' :: rest) = some (some s, rest) := by
  rw [readString, readUnits_flatMap]
  simp [charsOfUnits_map]

/-! ## Numbers -/

/-- What may follow a value in a text that was laid out. -/
def Ends (rest : List Char) : Prop := ∀ c ∈ rest.head?, c = ',' ∨ c = '\n'

theorem write_eq_cons (n : Nat) :
    ∃ c cs, Decimal.write n = c :: cs ∧ c.isDigit = true ∧ (c = '0' → n = 0) := by
  induction n using Nat.strongRecOn with
  | _ n ih =>
    by_cases hlt : n < 10
    · have hdigit : ∀ m < 10, (Nat.digitChar m).isDigit = true ∧ (Nat.digitChar m = '0' → m = 0) := by
        decide
      exact ⟨n.digitChar, [], Nat.toDigits_of_lt_base hlt, hdigit n hlt⟩
    · obtain ⟨c, cs, heq, hdigit, hzero⟩ := ih (n / 10) (by omega)
      refine ⟨c, cs ++ [(n % 10).digitChar], ?_, hdigit, fun h => absurd (hzero h) (by omega)⟩
      rw [Decimal.write] at heq ⊢
      rw [Nat.toDigits_of_base_le (by decide) (by omega), heq]
      rfl

theorem Ends.skip {rest : List Char} (h : Ends rest) :
    rest.takeWhile Char.isDigit = [] ∧ rest.dropWhile Char.isDigit = rest ∧
      skipFraction rest = some (false, rest) ∧ skipExponent rest = some (false, rest) := by
  cases rest with
  | nil => exact ⟨rfl, rfl, rfl, rfl⟩
  | cons c cs =>
    rcases h c rfl with rfl | rfl
    · exact ⟨rfl, rfl, rfl, rfl⟩
    · exact ⟨rfl, rfl, rfl, rfl⟩

theorem readNumber_write (negative : Bool) (n : Nat) {rest : List Char} (h : Ends rest) :
    readNumber negative (Decimal.write n ++ rest) =
      some (if negative then (if n = 0 then real else int (-n)) else int n, rest) := by
  obtain ⟨htake, hdrop, hfraction, hexponent⟩ := h.skip
  have hdigits : ∀ c ∈ Decimal.write n, c.isDigit = true := fun c hc =>
    Nat.isDigit_of_mem_toDigits (by decide) (by decide) hc
  obtain ⟨c, cs, heq, -, hzero⟩ := write_eq_cons n
  have hplain : ¬((Decimal.write n).head? = some '0' ∧ Decimal.write n ≠ ['0']) := by
    rintro ⟨hhead, hne⟩
    rw [heq, List.head?_cons, Option.some.injEq] at hhead
    rw [hzero hhead] at hne
    exact hne rfl
  simp only [readNumber, List.takeWhile_append_of_pos hdigits, List.dropWhile_append_of_pos hdigits,
    htake, hdrop, List.append_nil, Decimal.read?_write, if_neg hplain, hfraction, hexponent,
    Bool.or_self, Bool.false_eq_true, if_false]

/-! ## Layout -/

theorem skipBlanks_newline (level : Nat) (cs : List Char) :
    skipBlanks (newline level ++ cs) = skipBlanks cs := by
  apply List.dropWhile_append_of_pos
  intro c hc
  rw [newline, List.mem_cons, List.mem_replicate] at hc
  rcases hc with rfl | ⟨-, rfl⟩ <;> rfl

theorem readValue_newline (fuel level : Nat) (cs : List Char) :
    readValue fuel (newline level ++ cs) = readValue fuel cs := by
  cases fuel with
  | zero => rfl
  | succ fuel => rw [readValue, skipBlanks_newline, readValue]

theorem readValue_blank (fuel : Nat) (cs : List Char) :
    readValue fuel (' ' :: cs) = readValue fuel cs := by
  have hskip : skipBlanks (' ' :: cs) = skipBlanks cs := List.dropWhile_cons_of_pos rfl
  cases fuel with
  | zero => rfl
  | succ fuel => rw [readValue, hskip, readValue]

theorem readItems_newline (fuel level : Nat) (cs : List Char) :
    readItems fuel (newline level ++ cs) = readItems fuel cs := by
  cases fuel with
  | zero => rfl
  | succ fuel => rw [readItems, readValue_newline, readItems]

theorem readFields_newline (fuel level : Nat) (cs : List Char) :
    readFields fuel (newline level ++ cs) = readFields fuel cs := by
  cases fuel with
  | zero => rfl
  | succ fuel => rw [readFields, skipBlanks_newline, readFields]

theorem ends_newline (level : Nat) (cs : List Char) : Ends (newline level ++ cs) := by
  rintro c ⟨⟩
  exact .inr rfl

theorem ends_prettyItems (level : Nat) (xs : List Json) {rest : List Char} (h : Ends rest) :
    Ends (prettyItems level xs ++ rest) := by
  cases xs with
  | nil => exact h
  | cons x xs =>
    rintro c ⟨⟩
    exact .inl rfl

theorem ends_prettyFields (level : Nat) (fs : List (Option String × Json)) {rest : List Char}
    (h : Ends rest) : Ends (prettyFields level fs ++ rest) := by
  cases fs with
  | nil => exact h
  | cons f fs =>
    rintro c ⟨⟩
    exact .inl rfl

/-- A value starts with a character that is neither a blank nor a closing bracket. -/
theorem prettyChars_eq_cons {j : Json} (h : Plain j) (level : Nat) :
    ∃ c cs, prettyChars level j = c :: cs ∧ isBlank c = false ∧ c ≠ ']' := by
  cases h with
  | null => exact ⟨_, _, rfl, rfl, by decide⟩
  | bool b =>
    cases b with
    | true => exact ⟨_, _, rfl, rfl, by decide⟩
    | false => exact ⟨_, _, rfl, rfl, by decide⟩
  | int i =>
    cases i with
    | ofNat n =>
      obtain ⟨c, cs, heq, hdigit, -⟩ := write_eq_cons n
      refine ⟨c, cs, heq, ?_, ?_⟩
      · exact isBlank_of_isDigit hdigit
      · rintro rfl
        cases hdigit
    | negSucc n => exact ⟨_, _, rfl, rfl, by decide⟩
  | str s => exact ⟨_, _, rfl, rfl, by decide⟩
  | @array xs _ =>
    cases xs with
    | nil => exact ⟨_, _, rfl, rfl, by decide⟩
    | cons x xs => exact ⟨_, _, rfl, rfl, by decide⟩
  | @object fs _ _ =>
    cases fs with
    | nil => exact ⟨_, _, rfl, rfl, by decide⟩
    | cons f fs => exact ⟨_, _, rfl, rfl, by decide⟩

/-- A value is read back from where it was laid out. -/
def ReadBack (j : Json) : Prop :=
  ∀ {level fuel : Nat} {rest : List Char}, (prettyChars level j).length ≤ fuel → Ends rest →
    readValue fuel (prettyChars level j ++ rest) = some (j, rest)

theorem readItems_pretty {x : Json} {xs : List Json} (h : ∀ y ∈ x :: xs, ReadBack y)
    {level outer fuel : Nat} (rest : List Char)
    (hfuel : (prettyChars level x).length + (prettyItems level xs).length < fuel) :
    readItems fuel
      (prettyChars level x ++ (prettyItems level xs ++ (newline outer ++ ']' :: rest))) =
      some (x :: xs, rest) := by
  induction xs generalizing x fuel with
  | nil =>
    cases fuel with
    | zero => omega
    | succ fuel =>
      have hvalue : readValue fuel (prettyChars level x ++ (newline outer ++ ']' :: rest)) = _ :=
        h x List.mem_cons_self (by omega) (ends_newline _ _)
      rw [readItems, prettyItems, List.nil_append, hvalue]
      simp only [skipBlanks_newline, skipBlanks_cons (c := ']') rfl]
  | cons y ys ih =>
    cases fuel with
    | zero => omega
    | succ fuel =>
      obtain ⟨hx, hrest⟩ := List.forall_mem_cons.1 h
      have hends := ends_prettyItems level (y :: ys) (ends_newline outer (']' :: rest))
      have hvalue := @hx level fuel _ (by omega) hends
      rw [prettyItems, List.length_append, List.length_append] at hfuel
      simp only [List.length_cons] at hfuel
      have htail := @ih y hrest fuel (by omega)
      rw [readItems, hvalue, prettyItems]
      simp only [List.cons_append, List.append_assoc, skipBlanks_cons (c := ',') rfl,
        readItems_newline, htail, Option.map_some]

theorem readString_key (key : String) (cs : List Char) :
    skipBlanks (quote key ++ ':' :: ' ' :: cs) =
        '"' :: (key.toList.flatMap escapeChar ++ '"' :: ':' :: ' ' :: cs) ∧
      readString (key.toList.flatMap escapeChar ++ '"' :: ':' :: ' ' :: cs) =
        some (some key, ':' :: ' ' :: cs) := by
  refine ⟨?_, readString_quote key _⟩
  rw [quote, List.cons_append, List.cons_append, skipBlanks_cons rfl, List.append_assoc]
  rfl

theorem readFields_last {key : String} {x : Json} {fuel outer : Nat} {cs rest : List Char}
    (h : readValue fuel cs = some (x, newline outer ++ '\x7d' :: rest)) :
    readFields (fuel + 1) (quote key ++ ':' :: ' ' :: cs) = some ([(some key, x)], rest) := by
  obtain ⟨hskip, hkey⟩ := readString_key key cs
  rw [readFields, hskip]
  simp only [hkey, skipBlanks_cons (c := ':') rfl, readValue_blank, h, skipBlanks_newline,
    skipBlanks_cons (c := '\x7d') rfl]

theorem readFields_more {key : String} {x : Json} {fs : List (Option String × Json)} {fuel : Nat}
    {cs tail rest : List Char} (h : readValue fuel cs = some (x, ',' :: tail))
    (htail : readFields fuel tail = some (fs, rest)) :
    readFields (fuel + 1) (quote key ++ ':' :: ' ' :: cs) = some ((some key, x) :: fs, rest) := by
  obtain ⟨hskip, hkey⟩ := readString_key key cs
  rw [readFields, hskip]
  simp only [hkey, skipBlanks_cons (c := ':') rfl, readValue_blank, h,
    skipBlanks_cons (c := ',') rfl, htail, Option.map_some]

theorem readFields_pretty {k : String} {x : Json} {fs : List (Option String × Json)}
    (hkeys : ∀ f ∈ fs, f.1.isSome = true) (hx : ReadBack x) (hfs : ∀ f ∈ fs, ReadBack f.2)
    {level outer fuel : Nat} (rest : List Char)
    (hfuel : (prettyChars level x).length + (prettyFields level fs).length < fuel) :
    readFields fuel (quote k ++ ':' :: ' ' :: (prettyChars level x ++
      (prettyFields level fs ++ (newline outer ++ '\x7d' :: rest)))) =
      some ((some k, x) :: fs, rest) := by
  induction fs generalizing k x fuel with
  | nil =>
    cases fuel with
    | zero => omega
    | succ fuel => exact readFields_last (hx (by omega) (ends_newline outer _))
  | cons f fs ih =>
    cases fuel with
    | zero => omega
    | succ fuel =>
      obtain ⟨key, y⟩ := f
      obtain ⟨hkey, hkeys'⟩ := List.forall_mem_cons.1 hkeys
      obtain ⟨hy, hfs'⟩ := List.forall_mem_cons.1 hfs
      obtain ⟨k', rfl⟩ := Option.isSome_iff_exists.1 hkey
      have hends := ends_prettyFields level ((some k', y) :: fs)
        (ends_newline outer ('\x7d' :: rest))
      have hvalue := @hx level fuel _ (by omega) hends
      simp only [prettyFields, List.length_append, List.length_cons] at hfuel
      have htail := @ih k' y hkeys' hy hfs' fuel (by omega)
      simp only [prettyFields, List.cons_append, List.append_assoc, List.nil_append] at hvalue ⊢
      refine readFields_more hvalue ?_
      rw [readFields_newline]
      exact htail

theorem readBack_of_succ {j : Json} (h : Plain j)
    (hread : ∀ {level fuel : Nat} {rest : List Char}, (prettyChars level j).length ≤ fuel + 1 →
      Ends rest → readValue (fuel + 1) (prettyChars level j ++ rest) = some (j, rest)) :
    ReadBack j := by
  intro level fuel rest hfuel hends
  cases fuel with
  | zero =>
    obtain ⟨c, cs, heq, -⟩ := prettyChars_eq_cons h level
    rw [heq] at hfuel
    cases hfuel
  | succ fuel => exact hread hfuel hends

theorem readBack_int (i : Int) : ReadBack (.int i) := by
  apply readBack_of_succ (.int i)
  intro level fuel rest _ hends
  cases i with
  | ofNat n =>
    obtain ⟨c, cs, heq, hdigit, -⟩ := write_eq_cons n
    have hnumber := readNumber_write false n hends
    show readValue (fuel + 1) (Decimal.write n ++ rest) = _
    rw [heq, List.cons_append] at hnumber ⊢
    rw [readValue_of_isDigit hdigit]
    exact hnumber
  | negSucc n => exact readNumber_write true (n + 1) hends

theorem readBack_str (s : String) : ReadBack (.str s) := by
  apply readBack_of_succ (.str s)
  intro level fuel rest _ _
  have hstring := readString_quote s rest
  show readValue (fuel + 1) (quote s ++ rest) = _
  rw [readValue, quote, List.cons_append, List.cons_append, skipBlanks_cons rfl, List.append_assoc]
  simp only [List.cons_append, List.nil_append, hstring, Option.map_some]
  rfl

theorem readBack_array {xs : List Json} (h : ∀ x ∈ xs, Plain x) (hxs : ∀ x ∈ xs, ReadBack x) :
    ReadBack (.array xs) := by
  apply readBack_of_succ (.array h)
  intro level fuel rest hfuel _
  cases xs with
  | nil => rfl
  | cons x xs =>
    obtain ⟨c, cs, heq, hblank, hne⟩ := prettyChars_eq_cons (h x List.mem_cons_self) (level + 1)
    simp only [prettyChars, List.length_append, List.length_cons, List.cons_append,
      List.append_assoc, List.nil_append] at hfuel ⊢
    have hitems := @readItems_pretty x xs hxs (level + 1) level fuel rest (by omega)
    rw [readValue, skipBlanks_cons rfl]
    simp only [skipBlanks_newline]
    rw [heq, List.cons_append] at hitems ⊢
    rw [skipBlanks_cons hblank]
    split
    · next hclosed =>
      cases hclosed
      exact absurd rfl hne
    · rw [hitems]
      rfl

theorem readBack_object {fs : List (Option String × Json)} (hkeys : ∀ f ∈ fs, f.1.isSome = true)
    (h : ∀ f ∈ fs, Plain f.2) (hfs : ∀ f ∈ fs, ReadBack f.2) : ReadBack (.object fs) := by
  apply readBack_of_succ (.object hkeys h)
  intro level fuel rest hfuel _
  cases fs with
  | nil => rfl
  | cons f fs =>
    obtain ⟨key, x⟩ := f
    obtain ⟨hkey, hkeys'⟩ := List.forall_mem_cons.1 hkeys
    obtain ⟨hx, hfs'⟩ := List.forall_mem_cons.1 hfs
    obtain ⟨k, rfl⟩ := Option.isSome_iff_exists.1 hkey
    simp only [prettyChars, List.length_append, List.length_cons, List.cons_append,
      List.append_assoc, List.nil_append, Option.getD_some] at hfuel ⊢
    have hfields := @readFields_pretty k x fs hkeys' hx hfs' (level + 1) level fuel rest (by omega)
    rw [readValue, skipBlanks_cons rfl]
    simp only [skipBlanks_newline]
    rw [quote, List.cons_append, List.cons_append] at hfields ⊢
    rw [skipBlanks_cons rfl]
    show (readFields fuel _).map _ = _
    rw [hfields]
    rfl

theorem readBack {j : Json} (h : Plain j) : ReadBack j := by
  induction h with
  | null => exact readBack_of_succ .null fun _ _ => rfl
  | bool b =>
    apply readBack_of_succ (.bool b)
    intro level fuel rest _ _
    cases b with
    | true => rfl
    | false => rfl
  | int i => exact readBack_int i
  | str s => exact readBack_str s
  | array h ih => exact readBack_array h ih
  | object hkeys h ih => exact readBack_object hkeys h ih

/-- A tree is read back from its text. -/
theorem read?_pretty {j : Json} (h : Plain j) : read? j.pretty = some j := by
  have hread := @readBack j h 0 (2 * (prettyChars 0 j).length + 2) [] (by omega) nofun
  rw [List.append_nil] at hread
  simp [read?, pretty, hread, skipBlanks]

end LoopInvariant.Json
