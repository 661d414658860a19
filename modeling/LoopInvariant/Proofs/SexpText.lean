import LoopInvariant.Sexp.Reader
import Mathlib.Data.List.TakeWhile
/-!
# Reading s-expressions that were printed

The reader takes a token as far as it goes, so what was printed is read back only if every symbol
ends where it should. A symbol between bars ends at the next bar, any other one at the first
character that cannot be part of it. The symbols that survive are called legible. Illegible ones are
never read back, unless they consist of blanks only, in which case the text does not show them.

Half of the reader's fuel is compared with the length of the text, so that no measure of nesting is
needed.
-/

namespace LoopInvariant.Sexp

/-! ## Symbols -/

/-- A symbol that can stand without bars. -/
def isPlain (s : String) : Bool :=
  match s.toList with
  | [] => false
  | c :: cs => isSymbolStart c && cs.all isSymbolChar

/-- A symbol that is plain, or is written between bars and has none itself. -/
def Legible (s : String) : Prop := isPlain s = true ∨ needsBars s = true ∧ '|' ∉ s.toList

instance (s : String) : Decidable (Legible s) :=
  inferInstanceAs (Decidable (isPlain s = true ∨ needsBars s = true ∧ '|' ∉ s.toList))

/-- A symbol that its text shows. -/
def Visible (s : String) : Prop := ∃ c ∈ s.toList, isBlank c = false

instance (s : String) : Decidable (Visible s) :=
  decidable_of_iff (s.toList.any (fun c => !isBlank c) = true) (by simp [Visible])

/-- An s-expression over symbols with some property, whose comments are of one line. -/
inductive Over (P : String → Prop) : Sexp → Prop where
  | num (n : UInt64) : Over P (num n)
  | sym {s : String} (hs : P s) : Over P (sym s)
  | comment {s : String} (hs : '\n' ∉ s.toList) : Over P (comment s)
  | list {xs : List Sexp} (hxs : ∀ x ∈ xs, Over P x) : Over P (list xs)

def isComment : Sexp → Bool
  | comment _ => true
  | _ => false

def Ends (rest : List Char) : Prop := ∀ c ∈ rest.head?, c = ' ' ∨ c = '\n' ∨ c = ')'

theorem isPlain_of_toList {s : String} {c : Char} {cs : List Char} (h : s.toList = c :: cs) :
    isPlain s = (isSymbolStart c && cs.all isSymbolChar) := by
  rw [isPlain, h]

theorem isSymbolChar_of_isSymbolStart {c : Char} (h : isSymbolStart c = true) :
    isSymbolChar c = true := by
  rw [isSymbolChar, h, Bool.true_or, Bool.true_or]

theorem not_mem_of_all_not {p : Char → Bool} {c : Char} {cs : List Char}
    (hcs : cs.all (fun d => !p d) = true) (hc : p c = true) : c ∉ cs := by
  intro hmem
  have hnot := List.all_eq_true.1 hcs c hmem
  rw [hc] at hnot
  cases hnot

theorem isSymbolStart_of_isDigit {c : Char} (h : c.isDigit = true) : isSymbolStart c = false := by
  have hdigit : '0'.val ≤ c.val ∧ c.val ≤ '9'.val := by simpa [Char.isDigit] using h
  apply Bool.eq_false_iff.2
  intro hstart
  simp only [isSymbolStart, Bool.or_eq_true, Bool.and_eq_true, decide_eq_true_eq] at hstart
  rcases hstart with (⟨hlo, -⟩ | ⟨hlo, -⟩) | hmem
  · exact absurd (UInt32.le_trans hlo hdigit.2) (by decide)
  · exact absurd (UInt32.le_trans hlo hdigit.2) (by decide)
  · exact not_mem_of_all_not (by decide) h hmem

theorem isBlank_eq_false {p : Char → Bool} {c : Char}
    (hp : [' ', '\t', '\n', '\r'].all (fun d => !p d) = true) (hc : p c = true) :
    isBlank c = false := by
  apply Bool.eq_false_iff.2
  intro hblank
  apply not_mem_of_all_not hp hc
  simpa [isBlank, or_assoc] using hblank

/-! ## Tokens -/

theorem splits_append {p : Char → Bool} {cs rest : List Char} (hcs : ∀ c ∈ cs, p c = true)
    (hrest : ∀ c ∈ rest.head?, p c = false) :
    (cs ++ rest).takeWhile p = cs ∧ (cs ++ rest).dropWhile p = rest := by
  rw [List.takeWhile_append_of_pos hcs, List.dropWhile_append_of_pos hcs]
  cases rest with
  | nil => simp
  | cons c rest =>
    have hc := hrest c rfl
    simp [hc]

theorem splits_mark {mark : Char} {cs : List Char} (h : mark ∉ cs) (rest : List Char) :
    (cs ++ mark :: rest).takeWhile (· ≠ mark) = cs ∧
      (cs ++ mark :: rest).dropWhile (· ≠ mark) = mark :: rest := by
  apply splits_append
  · intro c hc
    exact decide_eq_true fun heq => h (heq ▸ hc)
  · intro c hc
    cases hc
    exact decide_eq_false fun hne => hne rfl

theorem readBetween_of_ne {mark c : Char} (h : c ≠ mark) (cs : List Char) :
    readBetween mark (c :: cs) = none := if_neg h

theorem readBetween_mark {mark : Char} {cs : List Char} (h : mark ∉ cs) (rest : List Char) :
    readBetween mark (mark :: (cs ++ mark :: rest)) = some (sym (String.ofList cs), rest) := by
  obtain ⟨htake, hdrop⟩ := splits_mark h rest
  rw [readBetween, if_pos rfl]
  simp only [htake, hdrop]

theorem readSymbol_append {c : Char} {cs rest : List Char} (hc : isSymbolStart c = true)
    (hcs : ∀ d ∈ cs, isSymbolChar d = true) (hrest : Ends rest) :
    readSymbol (c :: (cs ++ rest)) = some (sym (String.ofList (c :: cs)), rest) := by
  have hend : ∀ d ∈ rest.head?, isSymbolChar d = false := by
    intro d hd
    rcases hrest d hd with rfl | rfl | rfl <;> decide
  obtain ⟨htake, hdrop⟩ := splits_append hcs hend
  rw [readSymbol, if_pos hc, htake, hdrop]

theorem readSymbol_of_not {c : Char} (h : isSymbolStart c = false) (cs : List Char) :
    readSymbol (c :: cs) = none := if_neg (Bool.eq_false_iff.1 h)

theorem readNumeral_write (n : UInt64) {rest : List Char} (hrest : Ends rest) :
    readNumeral (Decimal.write n.toNat ++ rest) = some (num n, rest) := by
  have hdigits : ∀ c ∈ Decimal.write n.toNat, c.isDigit = true := fun c hc =>
    Nat.isDigit_of_mem_toDigits (by decide) (by decide) hc
  have hend : ∀ d ∈ rest.head?, d.isDigit = false := by
    intro d hd
    rcases hrest d hd with rfl | rfl | rfl <;> decide
  obtain ⟨htake, hdrop⟩ := splits_append hdigits hend
  have hword : Decimal.readWord? (Decimal.write n.toNat) = some n.toNat := by
    rw [Decimal.readWord?, Decimal.read?_write, Option.filter_some,
      if_pos (decide_eq_true n.toNat_lt)]
  rw [readNumeral, htake, hdrop, hword, Option.map_some, UInt64.ofNat_toNat]

theorem readAtom_write (n : UInt64) {rest : List Char} (hrest : Ends rest) :
    readAtom (Decimal.write n.toNat ++ rest) = some (num n, rest) := by
  have hread := readNumeral_write n hrest
  cases hwrite : Decimal.write n.toNat with
  | nil => exact absurd hwrite Nat.toDigits_ne_nil
  | cons c cs =>
    have hdigit : c.isDigit = true :=
      Nat.isDigit_of_mem_toDigits (by decide) (by decide) (hwrite ▸ List.mem_cons_self)
    have hne : ∀ mark : Char, mark.isDigit = false → c ≠ mark := by
      intro mark hmark heq
      exact Bool.false_ne_true (hmark.symm.trans (heq ▸ hdigit))
    rw [hwrite] at hread
    rw [List.cons_append] at hread ⊢
    rw [readAtom, readBetween_of_ne (hne '"' rfl), readBetween_of_ne (hne '|' rfl),
      readSymbol_of_not (isSymbolStart_of_isDigit hdigit), hread]
    rfl

theorem readAtom_symbolChars {s : String} (hs : Legible s) {rest : List Char}
    (hrest : Ends rest) : readAtom (symbolChars s ++ rest) = some (sym s, rest) := by
  rw [symbolChars]
  by_cases hbars : needsBars s = true
  · have hbar : '|' ∉ s.toList := by
      refine hs.elim (fun hplain hmem => ?_) And.right
      cases htext : s.toList with
      | nil => simp [htext] at hmem
      | cons c cs =>
        rw [isPlain_of_toList htext, Bool.and_eq_true, List.all_eq_true] at hplain
        rw [htext] at hmem
        have hchar : isSymbolChar '|' = true := (List.mem_cons.1 hmem).elim
          (fun heq => isSymbolChar_of_isSymbolStart (heq ▸ hplain.1)) (hplain.2 '|')
        exact absurd hchar (by decide)
    rw [if_pos hbars]
    simp only [List.cons_append, List.append_assoc, List.nil_append]
    rw [readAtom, readBetween_of_ne (by decide), readBetween_mark hbar, String.ofList_toList]
    rfl
  · have hplain : isPlain s = true := hs.resolve_right fun h => hbars h.1
    rw [if_neg hbars]
    cases htext : s.toList with
    | nil => simp [isPlain, htext] at hplain
    | cons c cs =>
      rw [isPlain_of_toList htext, Bool.and_eq_true, List.all_eq_true] at hplain
      have hne : ∀ mark : Char, isSymbolStart mark = false → c ≠ mark := by
        intro mark hmark heq
        exact Bool.false_ne_true (hmark.symm.trans (heq ▸ hplain.1))
      rw [List.cons_append, readAtom, readBetween_of_ne (hne '"' rfl),
        readBetween_of_ne (hne '|' rfl), readSymbol_append hplain.1 hplain.2 hrest, ← htext,
        String.ofList_toList]
      rfl

theorem readComment_mark {cs : List Char} (h : '\n' ∉ cs) (rest : List Char) :
    readComment (';' :: (cs ++ '\n' :: rest)) = some (comment (String.ofList cs), rest) := by
  obtain ⟨htake, hdrop⟩ := splits_mark h rest
  rw [readComment]
  simp only [htake, hdrop]

theorem readComment_append {s : String} (hs : '\n' ∉ s.toList) (rest : List Char) :
    readComment (';' :: (s.toList ++ '\n' :: rest)) = some (comment s, rest) := by
  rw [readComment_mark hs, String.ofList_toList]

/-! ## Steps of the reader -/

theorem readOne_of_token {fuel : Nat} {cs : List Char} {r : Sexp × List Char}
    (h : (readAtom cs).or (readComment cs) = some r) : readOne (fuel + 1) cs = some r := by
  rw [readOne.eq_def]
  simp only [h]

theorem readOne_paren {fuel : Nat} {cs rest : List Char} {xs : List Sexp}
    (h : readMany fuel cs = (xs, ')' :: rest)) :
    readOne (fuel + 1) ('(' :: cs) = some (list xs, rest) := by
  have htoken : (readAtom ('(' :: cs)).or (readComment ('(' :: cs)) = none := rfl
  rw [readOne, htoken]
  simp only [h]

theorem readMany_of_paren {fuel : Nat} {cs rest : List Char} {xs : List Sexp}
    (h : readOne (fuel + 1) ('(' :: cs) = some (list xs, rest)) :
    readMany fuel cs = (xs, ')' :: rest) := by
  have htoken : (readAtom ('(' :: cs)).or (readComment ('(' :: cs)) = none := rfl
  rw [readOne, htoken] at h
  simp only at h
  split at h
  · next heq =>
    cases h
    exact heq
  · cases h

theorem readMany_of_some {fuel : Nat} {cs rest : List Char} {x : Sexp}
    (h : readOne fuel (skipBlanks cs) = some (x, rest)) :
    readMany (fuel + 1) cs = (x :: (readMany fuel rest).1, (readMany fuel rest).2) := by
  rw [readMany, h]

theorem readMany_of_none {fuel : Nat} {cs : List Char}
    (h : readOne fuel (skipBlanks cs) = none) : readMany (fuel + 1) cs = ([], skipBlanks cs) := by
  rw [readMany, h]

theorem readMany_nil (fuel : Nat) : readMany fuel [] = ([], []) := by
  cases fuel with
  | zero => rfl
  | succ fuel =>
    apply readMany_of_none
    cases fuel <;> rfl

theorem readMany_close (fuel : Nat) (rest : List Char) :
    readMany fuel (')' :: rest) = ([], ')' :: rest) := by
  cases fuel with
  | zero => rfl
  | succ fuel =>
    apply readMany_of_none
    cases fuel <;> rfl

theorem skipBlanks_cons {c : Char} (h : isBlank c = true) (cs : List Char) :
    skipBlanks (c :: cs) = skipBlanks cs := List.dropWhile_cons_of_pos h

theorem readMany_blank {c : Char} (h : isBlank c = true) (fuel : Nat) (cs : List Char) :
    readMany fuel (c :: cs) = readMany fuel cs := by
  cases fuel with
  | zero => rw [readMany, readMany, skipBlanks_cons h]
  | succ fuel => rw [readMany, readMany, skipBlanks_cons h]

/-! ## The text of a list -/

theorem chars_list (xs : List Sexp) : (list xs).chars = '(' :: moreChars true xs := by
  cases xs with
  | nil => rfl
  | cons x xs => cases x <;> rfl

theorem moreChars_cons {x : Sexp} (hx : x.isComment = false) (afterComment : Bool)
    (xs : List Sexp) :
    moreChars afterComment (x :: xs) =
      (if afterComment then [] else [' ']) ++ (x.chars ++ moreChars false xs) := by
  rw [← List.append_assoc]
  cases x with
  | comment s => cases hx
  | num | sym | list => rfl

theorem readMany_comment {s : String} (hs : '\n' ∉ s.toList) (afterComment : Bool) (fuel : Nat)
    (xs : List Sexp) (rest : List Char) :
    readMany (fuel + 2) (moreChars afterComment (comment s :: xs) ++ rest) =
      (comment s :: (readMany (fuel + 1) (moreChars true xs ++ rest)).1,
        (readMany (fuel + 1) (moreChars true xs ++ rest)).2) := by
  apply readMany_of_some
  simp only [moreChars, List.cons_append, List.append_assoc]
  apply readOne_of_token
  exact readComment_append hs _

theorem ends_moreChars (xs : List Sexp) (rest : List Char) : Ends (moreChars false xs ++ rest) := by
  intro c hc
  cases xs with
  | nil =>
    cases hc
    exact .inr (.inr rfl)
  | cons x xs =>
    cases x with
    | comment s =>
      cases hc
      exact .inr (.inl rfl)
    | num | sym | list =>
      cases hc
      exact .inl rfl

theorem length_moreChars_pos (xs : List Sexp) : 0 < (moreChars false xs).length := by
  cases xs with
  | nil => exact Nat.one_pos
  | cons x xs => cases x <;> exact Nat.succ_pos _

theorem chars_eq_cons {x : Sexp} (hx : x.Over Legible) (hcomment : x.isComment = false) :
    ∃ c cs, x.chars = c :: cs ∧ isBlank c = false := by
  cases hx with
  | num n =>
    cases hwrite : Decimal.write n.toNat with
    | nil => exact absurd hwrite Nat.toDigits_ne_nil
    | cons c cs =>
      have hdigit : c.isDigit = true :=
        Nat.isDigit_of_mem_toDigits (by decide) (by decide) (hwrite ▸ List.mem_cons_self)
      exact ⟨c, cs, hwrite, isBlank_eq_false (by decide) hdigit⟩
  | @sym s hs =>
    rw [chars, symbolChars]
    split
    · exact ⟨'|', s.toList ++ ['|'], rfl, rfl⟩
    · next hbars =>
      have hplain : isPlain s = true := hs.resolve_right fun h => hbars h.1
      cases htext : s.toList with
      | nil => simp [isPlain, htext] at hplain
      | cons c cs =>
        rw [isPlain_of_toList htext, Bool.and_eq_true] at hplain
        exact ⟨c, cs, rfl, isBlank_eq_false (by decide) hplain.1⟩
  | comment => cases hcomment
  | list hxs => exact ⟨'(', _, chars_list _, rfl⟩

theorem exists_fuel {x : Sexp} (hx : x.Over Legible) (hcomment : x.isComment = false) {fuel : Nat}
    (hfuel : 2 * x.chars.length ≤ fuel) : ∃ n, fuel = n + 1 := by
  obtain ⟨c, cs, hchars, -⟩ := chars_eq_cons hx hcomment
  rw [hchars, List.length_cons] at hfuel
  exact ⟨fuel - 1, by omega⟩

/-! ## Legible symbols are read back -/

def ReadsBack (x : Sexp) : Prop :=
  ∀ (fuel : Nat) (rest : List Char), 2 * x.chars.length ≤ fuel → Ends rest →
    readOne fuel (x.chars ++ rest) = some (x, rest)

theorem readMany_cons {x : Sexp} (hx : x.Over Legible) (hcomment : x.isComment = false)
    (hback : x.ReadsBack) (afterComment : Bool) {fuel : Nat} {xs : List Sexp}
    (hfuel : 2 * (moreChars afterComment (x :: xs)).length ≤ fuel + 1) (rest : List Char) :
    readMany (fuel + 1) (moreChars afterComment (x :: xs) ++ rest) =
      (x :: (readMany fuel (moreChars false xs ++ rest)).1,
        (readMany fuel (moreChars false xs ++ rest)).2) := by
  obtain ⟨c, cs, hchars, hblank⟩ := chars_eq_cons hx hcomment
  have hskip : skipBlanks (moreChars afterComment (x :: xs) ++ rest) =
      x.chars ++ (moreChars false xs ++ rest) := by
    have hstart : skipBlanks (x.chars ++ (moreChars false xs ++ rest)) =
        x.chars ++ (moreChars false xs ++ rest) := by
      rw [hchars, List.cons_append]
      exact List.dropWhile_cons_of_neg (Bool.eq_false_iff.1 hblank)
    rw [moreChars_cons hcomment]
    cases afterComment with
    | true => simpa using hstart
    | false =>
      simp only [Bool.false_eq_true, if_false, List.cons_append, List.nil_append,
        List.append_assoc]
      rw [skipBlanks_cons (by decide), hstart]
  apply readMany_of_some
  rw [hskip]
  apply hback
  · rw [moreChars_cons hcomment] at hfuel
    simp only [List.length_append] at hfuel
    have hpos := length_moreChars_pos xs
    omega
  · exact ends_moreChars xs rest

theorem readMany_moreChars {xs : List Sexp} (hxs : ∀ x ∈ xs, x.Over Legible)
    (hback : ∀ x ∈ xs, x.isComment = false → x.ReadsBack) (afterComment : Bool) {fuel : Nat}
    (hfuel : 2 * (moreChars afterComment xs).length ≤ fuel) (rest : List Char) :
    readMany fuel (moreChars afterComment xs ++ rest) = (xs, ')' :: rest) := by
  induction xs generalizing afterComment fuel with
  | nil => exact readMany_close fuel rest
  | cons x xs ih =>
    have hx := hxs x List.mem_cons_self
    have ih := ih (fun y hy => hxs y (List.mem_cons_of_mem x hy))
      (fun y hy => hback y (List.mem_cons_of_mem x hy))
    by_cases hcomment : x.isComment = false
    · have hlength := hfuel
      rw [moreChars_cons hcomment] at hlength
      simp only [List.length_append] at hlength
      obtain ⟨c, cs, hchars, -⟩ := chars_eq_cons hx hcomment
      rw [hchars, List.length_cons] at hlength
      obtain ⟨fuel, rfl⟩ : ∃ n, fuel = n + 1 := ⟨fuel - 1, by omega⟩
      rw [readMany_cons hx hcomment (hback x List.mem_cons_self hcomment) afterComment hfuel,
        ih false (by omega)]
    · cases hx with
      | num | sym | list => exact absurd rfl hcomment
      | comment hs =>
        simp only [moreChars, List.length_cons, List.length_append] at hfuel
        obtain ⟨fuel, rfl⟩ : ∃ n, fuel = n + 2 := ⟨fuel - 2, by omega⟩
        rw [readMany_comment hs, ih true (by omega)]

theorem Over.readsBack {x : Sexp} (hx : x.Over Legible) (hcomment : x.isComment = false) :
    x.ReadsBack := by
  induction hx with
  | num n =>
    intro fuel rest hfuel hrest
    obtain ⟨fuel, rfl⟩ := exists_fuel (.num n) rfl hfuel
    apply readOne_of_token
    rw [chars, readAtom_write n hrest]
    rfl
  | sym hs =>
    intro fuel rest hfuel hrest
    obtain ⟨fuel, rfl⟩ := exists_fuel (.sym hs) rfl hfuel
    apply readOne_of_token
    rw [chars, readAtom_symbolChars hs hrest]
    rfl
  | comment => cases hcomment
  | list hxs ih =>
    intro fuel rest hfuel hrest
    obtain ⟨fuel, rfl⟩ := exists_fuel (.list hxs) rfl hfuel
    rw [chars_list, List.length_cons] at hfuel
    rw [chars_list, List.cons_append]
    apply readOne_paren
    exact readMany_moreChars hxs ih true (by omega) rest

/-! ## Illegible symbols are not -/

theorem not_mem_takeWhile_ne (mark : Char) (cs : List Char) : mark ∉ cs.takeWhile (· ≠ mark) := by
  intro hmem
  have hne := List.all_eq_true.1 List.all_takeWhile mark hmem
  exact of_decide_eq_true hne rfl

theorem splits_at_mark {mark d : Char} {cs rest : List Char}
    (h : cs.dropWhile (· ≠ mark) = d :: rest) :
    cs = cs.takeWhile (· ≠ mark) ++ mark :: rest := by
  have hd := List.head?_dropWhile_not (· ≠ mark) cs
  rw [h] at hd
  have heq : d = mark := by simpa using hd
  rw [← heq, ← h, heq, List.takeWhile_append_dropWhile]

theorem readBetween_eq_some {mark : Char} {cs rest : List Char} {x : Sexp}
    (h : readBetween mark cs = some (x, rest)) :
    ∃ inner, mark ∉ inner ∧ x = sym (String.ofList inner) ∧
      cs = mark :: (inner ++ mark :: rest) := by
  cases cs with
  | nil => cases h
  | cons c cs =>
    rw [readBetween] at h
    split at h
    · next hc =>
      split at h
      · cases h
      · next hdrop =>
        cases h
        rw [hc]
        exact ⟨_, not_mem_takeWhile_ne mark cs, rfl, congrArg (mark :: ·) (splits_at_mark hdrop)⟩
    · cases h

theorem readComment_eq_some {cs rest : List Char} {x : Sexp} (h : readComment cs = some (x, rest)) :
    ∃ inner, '\n' ∉ inner ∧ x = comment (String.ofList inner) ∧
      cs = ';' :: (inner ++ '\n' :: rest) := by
  rw [readComment.eq_def] at h
  split at h
  · next cs =>
    split at h
    · cases h
    · next hdrop =>
      cases h
      exact ⟨_, not_mem_takeWhile_ne '\n' cs, rfl, congrArg (';' :: ·) (splits_at_mark hdrop)⟩
  · cases h

theorem readSymbol_eq_some {cs rest : List Char} {s : String}
    (h : readSymbol cs = some (sym s, rest)) : isPlain s = true := by
  cases cs with
  | nil => cases h
  | cons c cs =>
    rw [readSymbol] at h
    split at h
    · next hc =>
      cases h
      rw [isPlain_of_toList String.toList_ofList, hc, Bool.true_and]
      exact List.all_takeWhile
    · cases h

theorem readAtom_eq_some {cs rest : List Char} {s : String}
    (h : readAtom cs = some (sym s, rest)) :
    cs.head? = some '"' ∨ cs.head? = some '|' ∧ '|' ∉ s.toList ∨ isPlain s = true := by
  simp only [readAtom, Option.or_eq_some_iff] at h
  rcases h with h | ⟨-, h | ⟨-, h | ⟨-, h⟩⟩⟩
  · obtain ⟨_, -, -, rfl⟩ := readBetween_eq_some h
    exact .inl rfl
  · obtain ⟨inner, hinner, heq, rfl⟩ := readBetween_eq_some h
    cases heq
    exact .inr (.inl ⟨rfl, by rwa [String.toList_ofList]⟩)
  · exact .inr (.inr (readSymbol_eq_some h))
  · obtain ⟨n, -, hn⟩ := Option.map_eq_some_iff.1 h
    cases hn

theorem readOne_eq_some {fuel : Nat} {cs rest : List Char} {x : Sexp}
    (h : readOne (fuel + 1) cs = some (x, rest)) :
    (readAtom cs).or (readComment cs) = some (x, rest) ∨
      ∃ inner xs, cs = '(' :: inner ∧ x = list xs ∧ readMany fuel inner = (xs, ')' :: rest) := by
  rw [readOne.eq_def] at h
  simp only at h
  split at h
  · next hr =>
    cases h
    exact .inl hr
  · split at h
    · split at h
      · next heq =>
        cases h
        exact .inr ⟨_, _, rfl, rfl, heq⟩
      · cases h
    · cases h

theorem readAtom_of_readOne {fuel : Nat} {cs rest : List Char} {s : String}
    (h : readOne fuel cs = some (sym s, rest)) : readAtom cs = some (sym s, rest) := by
  cases fuel with
  | zero => cases h
  | succ fuel =>
    rcases readOne_eq_some h with htoken | ⟨_, _, -, hlist, -⟩
    · rcases Option.or_eq_some_iff.1 htoken with hatom | ⟨-, hcomment⟩
      · exact hatom
      · obtain ⟨_, -, hx, -⟩ := readComment_eq_some hcomment
        cases hx
    · cases hlist

theorem legible_of_readOne {fuel : Nat} {s : String} (hs : Visible s) {rest rest' : List Char}
    (h : readOne fuel (skipBlanks (symbolChars s ++ rest)) = some (sym s, rest')) : Legible s := by
  have hread := readAtom_eq_some (readAtom_of_readOne h)
  rw [symbolChars] at hread
  split at hread
  · next hbars =>
    rcases hread with hquote | ⟨-, hbar⟩ | hplain
    · cases hquote
    · exact .inr ⟨hbars, hbar⟩
    · exact .inl hplain
  · next hbars =>
    obtain ⟨c, hc, hblank⟩ := hs
    -- the text starts with a character of the symbol itself
    have hhead : ∃ d ∈ s.toList, (skipBlanks (s.toList ++ rest)).head? = some d := by
      cases hdrop : s.toList.dropWhile isBlank with
      | nil =>
        have hall := List.dropWhile_eq_nil_iff.1 hdrop c hc
        exact absurd hall (Bool.eq_false_iff.1 hblank)
      | cons d ds =>
        refine ⟨d, (List.dropWhile_sublist isBlank).subset (hdrop ▸ List.mem_cons_self), ?_⟩
        rw [skipBlanks, List.dropWhile_append, hdrop]
        rfl
    obtain ⟨d, hd, hhead⟩ := hhead
    rw [hhead] at hread
    rcases hread with hquote | ⟨hbar, hnone⟩ | hplain
    · cases hquote
      exact absurd (List.any_eq_true.2 ⟨'"', hd, by decide⟩) hbars
    · cases hbar
      exact absurd hd hnone
    · exact .inl hplain

theorem exists_readOne_of_readMany {fuel : Nat} {cs : List Char} {x : Sexp} {xs : List Sexp}
    (h : (readMany (fuel + 1) cs).1 = x :: xs) :
    ∃ rest, readOne fuel (skipBlanks cs) = some (x, rest) := by
  cases hread : readOne fuel (skipBlanks cs) with
  | none =>
    rw [readMany_of_none hread] at h
    cases h
  | some r =>
    rw [readMany_of_some hread] at h
    cases h
    exact ⟨r.2, rfl⟩

/-- The only way for an s-expression to be read off the front of its text is to be legible. -/
def Reveals (x : Sexp) : Prop :=
  ∀ (fuel : Nat) (rest rest' : List Char), 2 * x.chars.length ≤ fuel →
    readOne fuel (skipBlanks (x.chars ++ rest)) = some (x, rest') → x.Over Legible

theorem over_of_readMany {xs : List Sexp} (hxs : ∀ x ∈ xs, x.Over Visible)
    (hreveals : ∀ x ∈ xs, x.isComment = false → x.Reveals) (afterComment : Bool) {fuel : Nat}
    (hfuel : 2 * (moreChars afterComment xs).length ≤ fuel) (rest : List Char)
    (h : (readMany fuel (moreChars afterComment xs ++ rest)).1 = xs) :
    ∀ x ∈ xs, x.Over Legible := by
  induction xs generalizing afterComment fuel with
  | nil => exact fun x hx => absurd hx List.not_mem_nil
  | cons x xs ih =>
    have ih := ih (fun y hy => hxs y (List.mem_cons_of_mem x hy))
      (fun y hy => hreveals y (List.mem_cons_of_mem x hy))
    by_cases hcomment : x.isComment = false
    · have hlength := hfuel
      have hpos := length_moreChars_pos xs
      rw [moreChars_cons hcomment] at hlength
      simp only [List.length_append] at hlength
      obtain ⟨fuel, rfl⟩ : ∃ n, fuel = n + 1 := ⟨fuel - 1, by omega⟩
      have hlegible : x.Over Legible := by
        obtain ⟨rest', hread⟩ := exists_readOne_of_readMany h
        have hskip : skipBlanks (moreChars afterComment (x :: xs) ++ rest) =
            skipBlanks (x.chars ++ (moreChars false xs ++ rest)) := by
          rw [moreChars_cons hcomment]
          cases afterComment with
          | true => simp
          | false => simp [skipBlanks, isBlank]
        rw [hskip] at hread
        exact hreveals x List.mem_cons_self hcomment fuel _ rest' (by omega) hread
      obtain ⟨c, cs, hchars, -⟩ := chars_eq_cons hlegible hcomment
      rw [hchars, List.length_cons] at hlength
      rw [readMany_cons hlegible hcomment (hlegible.readsBack hcomment) afterComment hfuel] at h
      exact List.forall_mem_cons.2 ⟨hlegible, ih false (by omega) (List.cons.inj h).2⟩
    · cases hxs x List.mem_cons_self with
      | num | sym | list => exact absurd rfl hcomment
      | comment hs =>
        simp only [moreChars, List.length_cons, List.length_append] at hfuel
        obtain ⟨fuel, rfl⟩ : ∃ n, fuel = n + 2 := ⟨fuel - 2, by omega⟩
        rw [readMany_comment hs] at h
        exact List.forall_mem_cons.2 ⟨.comment hs, ih true (by omega) (List.cons.inj h).2⟩

theorem Over.reveals {x : Sexp} (hx : x.Over Visible) (hcomment : x.isComment = false) :
    x.Reveals := by
  induction hx with
  | num n => exact fun _ _ _ _ _ => .num n
  | sym hs => exact fun _ _ _ _ h => .sym (legible_of_readOne hs h)
  | comment => cases hcomment
  | list hxs ih =>
    intro fuel rest rest' hfuel h
    rw [chars_list, List.length_cons] at hfuel
    obtain ⟨fuel, rfl⟩ : ∃ n, fuel = n + 1 := ⟨fuel - 1, by omega⟩
    rw [chars_list] at h
    have hread := readMany_of_paren h
    exact .list (over_of_readMany hxs ih true (by omega) rest (congrArg Prod.fst hread))

/-! ## Whole texts -/

theorem ends_nil : Ends [] := fun _ hc => absurd hc (by simp)

theorem read_print_of_legible {x : Sexp} (hx : x.Over Legible) (hcomment : x.isComment = false) :
    read x.print = .ok x := by
  obtain ⟨c, cs, hchars, hblank⟩ := chars_eq_cons hx hcomment
  have hskip : skipBlanks x.chars = x.chars := by
    rw [hchars]
    exact List.dropWhile_cons_of_neg (Bool.eq_false_iff.1 hblank)
  have hread := hx.readsBack hcomment (fuelFor x.chars) [] (Nat.le_add_right _ 2) ends_nil
  rw [List.append_nil] at hread
  simp only [read, print, String.toList_ofList, hskip, hread]
  rfl

/-- What its text shows is read back only if it is legible. -/
theorem over_legible_of_read {x : Sexp} (hx : x.Over Visible) (hcomment : x.isComment = false)
    (h : read x.print = .ok x) : x.Over Legible := by
  simp only [read, print, String.toList_ofList] at h
  split at h
  · next y rest hread =>
    split at h
    · cases h
      refine hx.reveals hcomment (fuelFor x.chars) [] rest (Nat.le_add_right _ 2) ?_
      rw [List.append_nil, hread]
    · cases h
  · cases h

theorem read_print_iff {x : Sexp} (hx : x.Over Visible) (hcomment : x.isComment = false) :
    read x.print = .ok x ↔ x.Over Legible :=
  ⟨over_legible_of_read hx hcomment, fun h => read_print_of_legible h hcomment⟩

theorem toList_lines (xs : List Sexp) :
    ("\n".intercalate (xs.map print)).toList = ['\n'].intercalate (xs.map chars) := by
  have hchars : String.toList ∘ print = chars := funext fun x => String.toList_ofList
  rw [String.toList_intercalate, List.map_map, hchars]
  rfl

theorem readMany_lines {xs : List Sexp} (hxs : ∀ x ∈ xs, x.Over Legible ∧ x.isComment = false)
    {fuel : Nat} (hfuel : 2 * (['\n'].intercalate (xs.map chars)).length < fuel) :
    readMany fuel (['\n'].intercalate (xs.map chars)) = (xs, []) := by
  induction xs generalizing fuel with
  | nil => exact readMany_nil fuel
  | cons x xs ih =>
    obtain ⟨⟨hx, hcomment⟩, hxs⟩ := List.forall_mem_cons.1 hxs
    obtain ⟨fuel, rfl⟩ : ∃ n, fuel = n + 1 := ⟨fuel - 1, by omega⟩
    obtain ⟨c, cs, hchars, hblank⟩ := chars_eq_cons hx hcomment
    have hread : ∀ rest, 2 * x.chars.length ≤ fuel → Ends rest →
        readMany (fuel + 1) (x.chars ++ rest) = (x :: (readMany fuel rest).1,
          (readMany fuel rest).2) := by
      intro rest hle hrest
      have hskip : skipBlanks (x.chars ++ rest) = x.chars ++ rest := by
        rw [hchars, List.cons_append]
        exact List.dropWhile_cons_of_neg (Bool.eq_false_iff.1 hblank)
      apply readMany_of_some
      rw [hskip]
      exact hx.readsBack hcomment fuel rest hle hrest
    cases xs with
    | nil =>
      rw [List.map_cons, List.map_nil, List.intercalate_singleton] at hfuel ⊢
      rw [← List.append_nil x.chars, hread [] (by omega) ends_nil, readMany_nil]
    | cons y ys =>
      rw [List.map_cons, List.map_cons, List.intercalate_cons_cons] at hfuel ⊢
      rw [← List.map_cons] at hfuel ⊢
      simp only [List.length_append, List.length_singleton] at hfuel
      rw [List.append_assoc, hread _ (by omega) (fun c hc => ?_), List.singleton_append,
        readMany_blank (by decide), ih hxs (by omega)]
      cases hc
      exact .inr (.inl rfl)

/-- Whatever is legible is read back from its text, alone or in a list of several. -/
theorem read_undoes_print {x : Sexp} (hx : x.Over Legible) (hcomment : x.isComment = false)
    {xs : List Sexp} (hxs : ∀ y ∈ xs, y.Over Legible ∧ y.isComment = false) :
    read x.print = .ok x ∧ readAll ("\n".intercalate (xs.map print)) = .ok xs := by
  refine ⟨read_print_of_legible hx hcomment, ?_⟩
  rw [readAll, toList_lines]
  rw [readMany_lines hxs (show 2 * _ < fuelFor _ from Nat.lt_add_of_pos_right (by decide))]

def annotated : Sexp :=
  list [sym "p!0", comment "a)", comment "|(", list [sym "it's", num 18446744073709551615], list [],
    sym "b \n\"c"]

theorem annotated_over : annotated.Over Legible := by
  refine .list (List.forall_mem_cons.2 ⟨.sym (by decide +kernel), ?_⟩)
  refine List.forall_mem_cons.2 ⟨.comment (by decide +kernel), ?_⟩
  refine List.forall_mem_cons.2 ⟨.comment (by decide +kernel), ?_⟩
  refine List.forall_mem_cons.2 ⟨.list (List.forall_mem_cons.2 ⟨.sym (by decide +kernel), ?_⟩), ?_⟩
  · exact List.forall_mem_singleton.2 (.num _)
  · refine List.forall_mem_cons.2 ⟨.list (List.forall_mem_nil _), ?_⟩
    exact List.forall_mem_singleton.2 (.sym (by decide +kernel))

theorem annotated_read_back :
    annotated.print = "(p!0\n;a)\n\n;|(\n(|it's| 18446744073709551615) () |b \n\"c|)" ∧
      read annotated.print = .ok annotated ∧
      readAll ("\n".intercalate ([num 0, annotated, sym "-"].map print)) =
        .ok [num 0, annotated, sym "-"] := by
  refine ⟨by decide +kernel, read_undoes_print annotated_over rfl ?_⟩
  refine List.forall_mem_cons.2 ⟨⟨.num 0, rfl⟩, ?_⟩
  refine List.forall_mem_cons.2 ⟨⟨annotated_over, rfl⟩, ?_⟩
  exact List.forall_mem_singleton.2 ⟨.sym (by decide +kernel), rfl⟩

/-! ## Integer constants -/

/-- The integer of a constant without bounds: a numeral under any number of minus signs. -/
def signed? : Sexp → Option Int
  | num n => some n.toNat
  | list [sym "-", x] => (signed? x).map fun i => -i
  | _ => none

theorem toInt_neg {i : Int64} (h : i ≠ Int64.minValue) : (-i).toInt = -i.toInt := by
  have hle := Int64.le_toInt i
  have hlt := Int64.toInt_lt i
  have hne : i.toInt ≠ -9223372036854775808 := fun heq => h (Int64.toInt_inj.1 heq)
  rw [Int64.toInt_neg, Int.bmod_eq_of_le (by omega) (by omega)]

theorem neg_eq_minValue_iff {i : Int64} : -i = Int64.minValue ↔ i = Int64.minValue := by
  constructor
  · intro h
    rw [← Int64.neg_neg (a := i), h]
    rfl
  · rintro rfl
    rfl

/-- A constant is read as the integer that it stands for, and never as the least one. So no minus
sign is ever applied to an integer without an opposite. -/
theorem int?_eq_some_iff {x : Sexp} {i : Int64} :
    x.int? = some i ↔ x.signed? = some i.toInt ∧ i ≠ Int64.minValue := by
  induction x using int?.induct generalizing i with
  | case1 n =>
    rw [int?, signed?, Option.some.injEq]
    constructor
    · intro h
      have hvalue := toInt_of_checkedInt64 h
      refine ⟨hvalue.symm, ?_⟩
      rintro rfl
      have hmin : Int64.minValue.toInt = -9223372036854775808 := rfl
      omega
    · intro h
      rw [h.1, checkedInt64_toInt]
  | case2 x ih =>
    have hneg : (int? x).map (fun j => -j) = some i ↔ int? x = some (-i) := by
      rw [Option.map_eq_some_iff]
      constructor
      · rintro ⟨j, hj, rfl⟩
        rw [hj, Int64.neg_neg]
      · exact fun h => ⟨-i, h, Int64.neg_neg⟩
    have hsigned : (signed? x).map (fun j => -j) = some i.toInt ↔ signed? x = some (-i.toInt) := by
      rw [Option.map_eq_some_iff]
      constructor
      · rintro ⟨j, hj, heq⟩
        rw [hj, ← heq, Int.neg_neg]
      · exact fun h => ⟨-i.toInt, h, Int.neg_neg _⟩
    rw [int?, signed?, hneg, hsigned, ih, Ne, Ne, neg_eq_minValue_iff]
    refine and_congr_left fun hne => ?_
    rw [toInt_neg hne]
  | case3 x hnum hminus =>
    have hint : int? x = none := by
      rw [int?.eq_def]
      split
      · exact absurd rfl (hnum _)
      · exact absurd rfl (hminus _)
      · rfl
    have hsigned : signed? x = none := by
      rw [signed?.eq_def]
      split
      · exact absurd rfl (hnum _)
      · exact absurd rfl (hminus _)
      · rfl
    simp [hint, hsigned]

theorem toNat_natAbs (i : Int64) : (UInt64.ofNat i.toInt.natAbs).toNat = i.toInt.natAbs := by
  have hle := Int64.le_toInt i
  have hlt := Int64.toInt_lt i
  have hword : i.toInt.natAbs < 18446744073709551616 := by omega
  exact UInt64.toNat_ofNat_of_lt hword

theorem over_ofInt {P : String → Prop} (hminus : P "-") (i : Int64) : (ofInt i).Over P := by
  rw [ofInt]
  split
  · refine .list (List.forall_mem_cons.2 ⟨.sym hminus, ?_⟩)
    exact List.forall_mem_singleton.2 (.num _)
  · exact .num _

theorem isComment_ofInt (i : Int64) : (ofInt i).isComment = false := by
  rw [ofInt]
  split <;> rfl

theorem signed?_ofInt (i : Int64) : (ofInt i).signed? = some i.toInt := by
  rw [ofInt]
  split
  · rw [app, signed?, signed?, toNat_natAbs, Option.map_some, Option.some.injEq]
    omega
  · rw [signed?, toNat_natAbs, Option.some.injEq]
    omega

/-- The constant of an integer is printed and read back with the value of the integer, unless that
is the least one. Whatever the constant, the value that is read is the one that it stands for, and
has an opposite that the next minus sign can give. -/
theorem printed_constant_survives_iff (i : Int64) :
    ((∃ x, read (ofInt i).print = .ok x ∧ x.int? = some i) ↔ i ≠ Int64.minValue) ∧
      ∀ x : Sexp, x.int? = some i → x.signed? = some i.toInt ∧ (-i).toInt = -i.toInt := by
  have hread := read_print_of_legible (over_ofInt (by decide +kernel) i) (isComment_ofInt i)
  refine ⟨⟨fun h => ?_, fun hne => ?_⟩, fun x hx => ?_⟩
  · obtain ⟨x, -, hx⟩ := h
    exact (int?_eq_some_iff.1 hx).2
  · exact ⟨ofInt i, hread, int?_eq_some_iff.2 ⟨signed?_ofInt i, hne⟩⟩
  · obtain ⟨hsigned, hne⟩ := int?_eq_some_iff.1 hx
    exact ⟨hsigned, toInt_neg hne⟩

/-- The least integer is printed as a constant that has no value when it is read back. -/
theorem least_constant_lost :
    (ofInt Int64.minValue).print = "(- 9223372036854775808)" ∧
      read "(- 9223372036854775808)" = .ok (ofInt Int64.minValue) ∧
      (ofInt Int64.minValue).int? = none := by
  decide +kernel

end LoopInvariant.Sexp
