import LoopInvariant.Proofs.Except
import LoopInvariant.Proofs.SexpText
import LoopInvariant.Solver.Transcript
/-!
# Replaying transcripts

A transcript is saved with a command or a comment on each line. What is read back alone is read in
the same way with a line break and more text behind it, so the commands of a saved text are the ones
that were recorded. A comment is different: its mark covers one line, so the later lines of a text
stand in the file as if they had been sent. Only where these are blank or start with a mark of their
own is a text quiet, and no other text can be noted without changing what is replayed.
-/

namespace LoopInvariant.Sexp

/-! ## Reading with more text behind -/

/-- A split that stops inside a text, or else right behind it, leaves what follows alone. -/
theorem splits_on {p : Char → Bool} (cs : List Char) {more : List Char}
    (h : cs.dropWhile p = [] → ∀ c ∈ more.head?, p c = false) :
    (cs ++ more).takeWhile p = cs.takeWhile p ∧
      (cs ++ more).dropWhile p = cs.dropWhile p ++ more := by
  induction cs with
  | nil => exact splits_append (fun c hc => absurd hc List.not_mem_nil) (h rfl)
  | cons c cs ih =>
    by_cases hc : p c = true
    · rw [List.dropWhile_cons_of_pos hc] at h
      obtain ⟨htake, hdrop⟩ := ih h
      simp [hc, htake, hdrop]
    · simp [hc]

theorem splits_inside {p : Char → Bool} {c : Char} {cs rest : List Char}
    (h : cs.dropWhile p = c :: rest) (more : List Char) :
    (cs ++ more).takeWhile p = cs.takeWhile p ∧ (cs ++ more).dropWhile p = c :: (rest ++ more) := by
  rw [← List.cons_append, ← h]
  refine splits_on cs fun hnil => ?_
  rw [h] at hnil
  cases hnil

theorem readBetween_append {mark : Char} {cs rest : List Char} {x : Sexp}
    (h : readBetween mark cs = some (x, rest)) (more : List Char) :
    readBetween mark (cs ++ more) = some (x, rest ++ more) := by
  obtain ⟨inner, hinner, rfl, rfl⟩ := readBetween_eq_some h
  rw [List.cons_append, List.append_assoc]
  exact readBetween_mark hinner (rest ++ more)

theorem readSymbol_newline {cs rest : List Char} {x : Sexp} (h : readSymbol cs = some (x, rest))
    (more : List Char) : readSymbol (cs ++ '\n' :: more) = some (x, rest ++ '\n' :: more) := by
  cases cs with
  | nil => cases h
  | cons c cs =>
    rw [readSymbol] at h
    split at h
    · next hc =>
      cases h
      have hstop : ∀ d ∈ ('\n' :: more).head?, isSymbolChar d = false := by
        intro d hd
        cases hd
        rfl
      obtain ⟨htake, hdrop⟩ := splits_on cs fun _ => hstop
      rw [List.cons_append, readSymbol, if_pos hc, htake, hdrop]
    · cases h

theorem readNumeral_newline {cs rest : List Char} {x : Sexp} (h : readNumeral cs = some (x, rest))
    (more : List Char) : readNumeral (cs ++ '\n' :: more) = some (x, rest ++ '\n' :: more) := by
  obtain ⟨n, hn, heq⟩ := Option.map_eq_some_iff.1 h
  cases heq
  have hstop : ∀ d ∈ ('\n' :: more).head?, d.isDigit = false := by
    intro d hd
    cases hd
    rfl
  obtain ⟨htake, hdrop⟩ := splits_on cs fun _ => hstop
  rw [readNumeral, htake, hdrop, hn]
  rfl

theorem isDigit_of_readNumeral {c : Char} {cs : List Char} {r : Sexp × List Char}
    (h : readNumeral (c :: cs) = some r) : c.isDigit = true := by
  by_contra hc
  rw [readNumeral, List.takeWhile_cons_of_neg hc] at h
  cases h

/-- An atom that ends with the text still ends there if the next line follows. -/
theorem readAtom_newline {cs rest : List Char} {x : Sexp} (h : readAtom cs = some (x, rest))
    (more : List Char) : readAtom (cs ++ '\n' :: more) = some (x, rest ++ '\n' :: more) := by
  cases cs with
  | nil => cases h
  | cons c cs =>
    have hne : ∀ {p : Char → Bool} (mark : Char), p c = true → p mark = false → c ≠ mark := by
      intro p mark hc hmark heq
      exact Bool.false_ne_true (hmark.symm.trans (heq ▸ hc))
    simp only [readAtom, Option.or_eq_some_iff] at h
    rw [List.cons_append, readAtom]
    rcases h with h | ⟨-, h | ⟨-, h | ⟨-, h⟩⟩⟩
    · rw [← List.cons_append, readBetween_append h]
      rfl
    · obtain ⟨_, -, -, htext⟩ := readBetween_eq_some h
      obtain ⟨hc, -⟩ := List.cons.inj htext
      rw [readBetween_of_ne (hc ▸ by decide), ← List.cons_append, readBetween_append h]
      rfl
    · have hc : isSymbolStart c = true := by
        by_contra hc
        rw [readSymbol_of_not (Bool.eq_false_iff.2 hc)] at h
        cases h
      rw [readBetween_of_ne (hne '"' hc rfl), readBetween_of_ne (hne '|' hc rfl),
        ← List.cons_append, readSymbol_newline h]
      rfl
    · have hc := isDigit_of_readNumeral h
      rw [readBetween_of_ne (hne '"' hc rfl), readBetween_of_ne (hne '|' hc rfl),
        readSymbol_of_not (isSymbolStart_of_isDigit hc), ← List.cons_append, readNumeral_newline h]
      rfl

theorem skipBlanks_of_not {c : Char} (h : isBlank c = false) (cs : List Char) :
    skipBlanks (c :: cs) = c :: cs := List.dropWhile_cons_of_neg (Bool.eq_false_iff.1 h)

theorem readMany_skipBlanks (fuel : Nat) (cs : List Char) :
    readMany fuel (skipBlanks cs) = readMany fuel cs := by
  induction cs with
  | nil => rfl
  | cons c cs ih =>
    by_cases hc : isBlank c = true
    · rw [skipBlanks_cons hc, ih, readMany_blank hc]
    · rw [skipBlanks_of_not (Bool.eq_false_iff.2 hc)]

theorem readMany_stop {cs rest : List Char} (h : skipBlanks cs = ')' :: rest) (fuel : Nat)
    (more : List Char) : readMany fuel (cs ++ more) = ([], ')' :: (rest ++ more)) := by
  have hskip : skipBlanks (cs ++ more) = ')' :: (rest ++ more) := (splits_inside h more).2
  rw [← readMany_skipBlanks, hskip, readMany_close]

/-- A reader that has come to the end of an s-expression does the same, with more fuel, if the next
line follows. Inside parentheses it comes to the closing one. -/
theorem reads_newline (more : List Char) (fuel : Nat) :
    (∀ cs rest x, readOne fuel cs = some (x, rest) → ∀ fuel' ≥ fuel,
      readOne fuel' (cs ++ '\n' :: more) = some (x, rest ++ '\n' :: more)) ∧
    ∀ cs rest xs, readMany fuel cs = (xs, ')' :: rest) → ∀ fuel' ≥ fuel,
      readMany fuel' (cs ++ '\n' :: more) = (xs, ')' :: (rest ++ '\n' :: more)) := by
  induction fuel with
  | zero =>
    refine ⟨fun cs rest x h => (by cases h), fun cs rest xs h fuel' _ => ?_⟩
    rw [readMany] at h
    obtain ⟨rfl, hskip⟩ := Prod.mk.inj h
    exact readMany_stop hskip fuel' _
  | succ fuel ih =>
    obtain ⟨ihone, ihmany⟩ := ih
    constructor
    · intro cs rest x h fuel' hfuel
      obtain ⟨fuel', rfl⟩ : ∃ n, fuel' = n + 1 := ⟨fuel' - 1, by omega⟩
      rcases readOne_eq_some h with htoken | ⟨inner, xs, rfl, rfl, hmany⟩
      · apply readOne_of_token
        rcases Option.or_eq_some_iff.1 htoken with hatom | ⟨-, hcomment⟩
        · rw [readAtom_newline hatom]
          rfl
        · -- a text that starts with a comment's mark holds no atom
          obtain ⟨inner, hinner, rfl, rfl⟩ := readComment_eq_some hcomment
          rw [List.cons_append, List.append_assoc]
          exact readComment_mark hinner (rest ++ '\n' :: more)
      · exact readOne_paren (ihmany inner rest xs hmany fuel' (by omega))
    · intro cs rest xs h fuel' hfuel
      obtain ⟨fuel', rfl⟩ : ∃ n, fuel' = n + 1 := ⟨fuel' - 1, by omega⟩
      cases hread : readOne fuel (skipBlanks cs) with
      | none =>
        rw [readMany_of_none hread] at h
        obtain ⟨rfl, hskip⟩ := Prod.mk.inj h
        exact readMany_stop hskip _ _
      | some r =>
        obtain ⟨x, rest'⟩ := r
        rw [readMany_of_some hread] at h
        obtain ⟨rfl, hrest⟩ := Prod.mk.inj h
        cases hskip : skipBlanks cs with
        | nil =>
          rw [hskip] at hread
          cases fuel <;> cases hread
        | cons c ds =>
          have hone := ihone _ _ _ hread fuel' (by omega)
          have hmany := ihmany rest' rest _ (Prod.ext rfl hrest) fuel' (by omega)
          have hskip' : skipBlanks (cs ++ '\n' :: more) = c :: (ds ++ '\n' :: more) :=
            (splits_inside hskip _).2
          rw [hskip, List.cons_append, ← hskip'] at hone
          rw [readMany_of_some hone, hmany]

/-! ## Going through a text -/

/-- The reader goes through a text and takes s-expressions off it, whatever comes then. It starts
with enough fuel and has enough left for the rest. -/
def Passes (cs : List Char) (xs : List Sexp) : Prop :=
  ∀ (rest : List Char) (fuel : Nat), fuelFor (cs ++ rest) ≤ fuel →
    ∃ fuel', fuelFor rest ≤ fuel' ∧
      readMany fuel (cs ++ rest) = (xs ++ (readMany fuel' rest).1, (readMany fuel' rest).2)

theorem Passes.append {cs ds : List Char} {xs ys : List Sexp} (hcs : Passes cs xs)
    (hds : Passes ds ys) : Passes (cs ++ ds) (xs ++ ys) := by
  intro rest fuel hfuel
  rw [List.append_assoc] at hfuel ⊢
  obtain ⟨fuel₁, hfuel₁, hfirst⟩ := hcs (ds ++ rest) fuel hfuel
  obtain ⟨fuel₂, hfuel₂, hsecond⟩ := hds rest fuel₁ hfuel₁
  refine ⟨fuel₂, hfuel₂, ?_⟩
  rw [hfirst, hsecond, List.append_assoc]

theorem passes_blanks {cs : List Char} (h : cs.all isBlank = true) : Passes cs [] := by
  intro rest fuel hfuel
  have hskip : skipBlanks (cs ++ rest) = skipBlanks rest :=
    List.dropWhile_append_of_pos (List.all_eq_true.1 h)
  refine ⟨fuel, ?_, ?_⟩
  · rw [fuelFor, List.length_append] at hfuel
    rw [fuelFor]
    omega
  · rw [← readMany_skipBlanks, hskip, readMany_skipBlanks]
    rfl

theorem passes_comment {cs : List Char} (h : '\n' ∉ cs) :
    Passes (';' :: cs ++ ['\n']) [comment (String.ofList cs)] := by
  intro rest fuel hfuel
  simp only [fuelFor, List.cons_append, List.length_cons, List.length_append, List.length_nil]
    at hfuel
  obtain ⟨fuel, rfl⟩ : ∃ n, fuel = n + 2 := ⟨fuel - 2, by omega⟩
  refine ⟨fuel + 1, ?_, ?_⟩
  · rw [fuelFor]
    omega
  · apply readMany_of_some
    rw [List.append_assoc, List.singleton_append]
    exact readOne_of_token (readComment_mark h rest)

theorem passes_line {cs : List Char} {x : Sexp} (h : read (String.ofList cs) = .ok x) :
    Passes (cs ++ ['\n']) [x] := by
  have hread : ∃ rest, readOne (fuelFor cs) (skipBlanks cs) = some (x, rest) ∧
      ∀ c ∈ rest, isBlank c = true := by
    simp only [read, String.toList_ofList] at h
    split at h
    · next hone =>
      split at h
      · next hblank =>
        cases h
        exact ⟨_, hone, List.dropWhile_eq_nil_iff.1 hblank⟩
      · cases h
    · cases h
  obtain ⟨blanks, hone, hblanks⟩ := hread
  intro rest fuel hfuel
  simp only [fuelFor, List.append_assoc, List.length_append, List.length_cons, List.length_nil]
    at hfuel
  obtain ⟨fuel, rfl⟩ : ∃ n, fuel = n + 1 := ⟨fuel - 1, by omega⟩
  have hskip : skipBlanks (cs ++ '\n' :: rest) = skipBlanks cs ++ '\n' :: rest := by
    refine (splits_on cs fun hnil => ?_).2
    rw [skipBlanks, hnil] at hone
    cases hone
  have hnext : readOne fuel (skipBlanks (cs ++ '\n' :: rest)) =
      some (x, blanks ++ '\n' :: rest) := by
    rw [hskip]
    refine (reads_newline rest _).1 _ _ _ hone fuel ?_
    rw [fuelFor]
    omega
  have hempty : skipBlanks (blanks ++ '\n' :: rest) = skipBlanks rest := by
    rw [skipBlanks, List.dropWhile_append_of_pos hblanks]
    exact skipBlanks_cons rfl rest
  refine ⟨fuel, ?_, ?_⟩
  · rw [fuelFor]
    omega
  · rw [List.append_assoc, List.singleton_append, readMany_of_some hnext, ← readMany_skipBlanks,
      hempty, readMany_skipBlanks]
    rfl

theorem readAll_eq_ok {text : String} {xs : List Sexp} :
    readAll text = .ok xs ↔ readMany (fuelFor text.toList) text.toList = (xs, []) := by
  simp only [readAll]
  split
  · next heq => simp [heq]
  · next hne heq =>
    rw [heq]
    constructor
    · intro h
      cases h
    · intro h
      cases h
      exact absurd rfl hne

theorem Passes.readAll_eq {cs : List Char} {xs : List Sexp} (h : Passes cs xs) :
    readAll (String.ofList cs) = .ok xs := by
  obtain ⟨fuel, -, hread⟩ := h [] (fuelFor (cs ++ [])) (Nat.le_refl _)
  rw [readMany_nil, List.append_nil, List.append_nil] at hread
  rw [readAll_eq_ok, String.toList_ofList, hread]

theorem isComment_of_readAtom {cs rest : List Char} {x : Sexp} (h : readAtom cs = some (x, rest)) :
    x.isComment = false := by
  simp only [readAtom, Option.or_eq_some_iff] at h
  rcases h with h | ⟨-, h | ⟨-, h | ⟨-, h⟩⟩⟩
  · obtain ⟨_, -, rfl, -⟩ := readBetween_eq_some h
    rfl
  · obtain ⟨_, -, rfl, -⟩ := readBetween_eq_some h
    rfl
  · cases cs with
    | nil => cases h
    | cons c cs =>
      rw [readSymbol] at h
      split at h
      · cases h
        rfl
      · cases h
  · obtain ⟨n, -, heq⟩ := Option.map_eq_some_iff.1 h
    cases heq
    rfl

theorem isComment_of_readOne {fuel : Nat} {c : Char} {cs rest : List Char} {x : Sexp}
    (h : readOne fuel (c :: cs) = some (x, rest)) (hc : c ≠ ';') : x.isComment = false := by
  cases fuel with
  | zero => cases h
  | succ fuel =>
    rcases readOne_eq_some h with htoken | ⟨_, _, -, rfl, -⟩
    · rcases Option.or_eq_some_iff.1 htoken with hatom | ⟨-, hcomment⟩
      · exact isComment_of_readAtom hatom
      · obtain ⟨_, -, -, htext⟩ := readComment_eq_some hcomment
        exact absurd (List.cons.inj htext).1 hc
    · rfl

/-- Where a text goes on with a character that is neither blank nor starts a comment, it holds
another s-expression that is no comment, or cannot be read. -/
theorem Passes.exists_of_readAll {cs rest : List Char} {xs ys : List Sexp} (h : Passes cs xs)
    {c : Char} (hblank : isBlank c = false) (hc : c ≠ ';')
    (hread : readAll (String.ofList (cs ++ c :: rest)) = .ok ys) :
    ∃ y zs, y.isComment = false ∧ ys = xs ++ y :: zs := by
  rw [readAll_eq_ok, String.toList_ofList] at hread
  obtain ⟨fuel, hfuel, hpass⟩ := h (c :: rest) _ (Nat.le_refl _)
  rw [hpass] at hread
  obtain ⟨rfl, hend⟩ := Prod.mk.inj hread
  rw [fuelFor, List.length_cons] at hfuel
  obtain ⟨fuel, rfl⟩ : ∃ n, fuel = n + 1 := ⟨fuel - 1, by omega⟩
  have hskip := skipBlanks_of_not hblank rest
  cases hone : readOne fuel (skipBlanks (c :: rest)) with
  | none =>
    rw [readMany_of_none hone, hskip] at hend
    cases hend
  | some r =>
    obtain ⟨y, rest'⟩ := r
    refine ⟨y, (readMany fuel rest').1, ?_, by rw [readMany_of_some hone]⟩
    rw [hskip] at hone
    exact isComment_of_readOne hone hc

/-! ## Quiet texts -/

def commands (xs : List Sexp) : List Sexp := xs.filter fun x => !x.isComment

theorem commands_append (xs ys : List Sexp) : commands (xs ++ ys) = commands xs ++ commands ys :=
  List.filter_append xs ys

def isRemark (line : List Char) : Bool := (skipBlanks line).head?.all (· == ';')

/-- A text whose lines after the first are blank or comments of their own. -/
def Quiet (s : String) : Prop := ∀ line ∈ (s.toList.splitOn '\n').tail, isRemark line = true

instance (s : String) : Decidable (Quiet s) :=
  inferInstanceAs (Decidable (∀ line ∈ (s.toList.splitOn '\n').tail, isRemark line = true))

theorem lines_splitOn (cs : List Char) :
    (cs.splitOn '\n').flatMap (· ++ ['\n']) = cs ++ ['\n'] ∧
      ∀ line ∈ cs.splitOn '\n', '\n' ∉ line := by
  induction cs with
  | nil => simp [List.splitOn_nil]
  | cons c cs ih =>
    obtain ⟨hjoin, hlines⟩ := ih
    have hcons : (c :: cs).splitOn '\n' = if (c == '\n') = true then [] :: cs.splitOn '\n'
        else (cs.splitOn '\n').modifyHead (c :: ·) := List.splitOnP_cons_eq_if_modifyHead c cs
    rw [hcons]
    split
    · next hc =>
      cases eq_of_beq hc
      refine ⟨by rw [List.flatMap_cons, hjoin]; rfl, List.forall_mem_cons.2 ⟨by simp, hlines⟩⟩
    · next hc =>
      cases hsplit : cs.splitOn '\n' with
      | nil => exact absurd hsplit (List.splitOn_ne_nil _ _)
      | cons line lines =>
        rw [hsplit] at hjoin hlines
        obtain ⟨hline, hlines⟩ := List.forall_mem_cons.1 hlines
        rw [List.modifyHead_cons]
        refine ⟨?_, List.forall_mem_cons.2 ⟨?_, hlines⟩⟩
        · rw [List.cons_append, ← hjoin]
          rfl
        · intro hmem
          rcases List.mem_cons.1 hmem with rfl | hmem
          · exact hc rfl
          · exact hline hmem

theorem passes_remark {line : List Char} (hline : '\n' ∉ line) (h : isRemark line = true) :
    ∃ xs, Passes (line ++ ['\n']) xs ∧ commands xs = [] := by
  have hblanks : Passes (line.takeWhile isBlank) [] := passes_blanks List.all_takeWhile
  rw [isRemark] at h
  rw [← List.takeWhile_append_dropWhile (p := isBlank) (l := line), List.append_assoc]
  cases hskip : skipBlanks line with
  | nil =>
    have hrest : line.dropWhile isBlank = [] := hskip
    rw [hrest]
    exact ⟨[], hblanks.append (passes_blanks rfl), rfl⟩
  | cons c rest =>
    have hrest : line.dropWhile isBlank = c :: rest := hskip
    have hc : c = ';' := by simpa [hskip] using h
    have hmem : '\n' ∉ rest := fun hmem =>
      hline ((List.dropWhile_sublist isBlank).subset (hrest ▸ List.mem_cons_of_mem c hmem))
    rw [hrest, hc]
    exact ⟨_, hblanks.append (passes_comment hmem), rfl⟩

theorem passes_remarks {lines : List (List Char)} (hlines : ∀ line ∈ lines, '\n' ∉ line)
    (h : ∀ line ∈ lines, isRemark line = true) :
    ∃ xs, Passes (lines.flatMap (· ++ ['\n'])) xs ∧ commands xs = [] := by
  induction lines with
  | nil => exact ⟨[], passes_blanks rfl, rfl⟩
  | cons line lines ih =>
    obtain ⟨hline, hlines⟩ := List.forall_mem_cons.1 hlines
    obtain ⟨hremark, hremarks⟩ := List.forall_mem_cons.1 h
    obtain ⟨xs, hpass, hxs⟩ := passes_remark hline hremark
    obtain ⟨ys, hpasses, hys⟩ := ih hlines hremarks
    refine ⟨xs ++ ys, hpass.append hpasses, ?_⟩
    rw [commands_append, hxs, hys, List.append_nil]

theorem exists_stray {lines : List (List Char)} (hlines : ∀ line ∈ lines, '\n' ∉ line)
    (h : ¬∀ line ∈ lines, isRemark line = true) :
    ∃ cs xs c rest, lines.flatMap (· ++ ['\n']) = cs ++ c :: rest ∧ Passes cs xs ∧
      commands xs = [] ∧ isBlank c = false ∧ c ≠ ';' := by
  induction lines with
  | nil => exact absurd (List.forall_mem_nil _) h
  | cons line lines ih =>
    obtain ⟨hline, hlines⟩ := List.forall_mem_cons.1 hlines
    by_cases hremark : isRemark line = true
    · obtain ⟨xs, hpass, hxs⟩ := passes_remark hline hremark
      obtain ⟨cs, ys, c, rest, htext, hpasses, hys, hc⟩ :=
        ih hlines fun hall => h (List.forall_mem_cons.2 ⟨hremark, hall⟩)
      refine ⟨line ++ ['\n'] ++ cs, xs ++ ys, c, rest, ?_, hpass.append hpasses, ?_, hc⟩
      · rw [List.flatMap_cons, htext, List.append_assoc (line ++ ['\n'])]
      · rw [commands_append, hxs, hys, List.append_nil]
    · rw [isRemark] at hremark
      cases hskip : skipBlanks line with
      | nil => simp [hskip] at hremark
      | cons c rest =>
        have hrest : line.dropWhile isBlank = c :: rest := hskip
        have hblank : isBlank c = false := by
          have hnot := List.head?_dropWhile_not isBlank line
          rw [hrest] at hnot
          simpa using hnot
        refine ⟨line.takeWhile isBlank, [], c, rest ++ '\n' :: lines.flatMap (· ++ ['\n']), ?_,
          passes_blanks List.all_takeWhile, rfl, hblank, ?_⟩
        · rw [List.flatMap_cons, ← List.cons_append, ← hrest, ← List.append_assoc,
            List.takeWhile_append_dropWhile, List.append_assoc]
          rfl
        · rintro rfl
          simp [hskip] at hremark

end LoopInvariant.Sexp

namespace LoopInvariant.Solver.Transcript

open Sexp

/-- Reading the text of a transcript gives the commands that were recorded. -/
def Replays (t : Transcript) : Prop := (readAll t.render).map commands = .ok (commands t.entries)

instance (t : Transcript) : Decidable t.Replays :=
  inferInstanceAs (Decidable ((readAll t.render).map commands = .ok (commands t.entries)))

def lineChars (x : Sexp) : List Char := (line x).toList ++ ['\n']

theorem render_eq (t : Transcript) : t.render = String.ofList (t.entries.flatMap lineChars) := by
  apply String.toList_injective
  rw [render, String.toList_join, String.toList_ofList, List.flatMap_map]
  congr 1
  funext x
  exact String.toList_append

theorem lineChars_command {x : Sexp} (h : x.isComment = false) :
    lineChars x = x.chars ++ ['\n'] := by
  have hline : line x = x.print := by
    cases x with
    | comment s => cases h
    | num | sym | list => rfl
  rw [lineChars, hline, print, String.toList_ofList]

theorem lineChars_comment (s : String) :
    ∃ first xs, lineChars (.comment s) =
        first ++ (s.toList.splitOn '\n').tail.flatMap (· ++ ['\n']) ∧
      Passes first xs ∧ commands xs = [] := by
  by_cases hempty : s = ""
  · subst hempty
    exact ⟨['\n'], [], rfl, passes_blanks rfl, rfl⟩
  · obtain ⟨hjoin, hlines⟩ := lines_splitOn s.toList
    cases hsplit : s.toList.splitOn '\n' with
    | nil => exact absurd hsplit (List.splitOn_ne_nil _ _)
    | cons line lines =>
      rw [hsplit] at hjoin hlines
      have hmark : '\n' ∉ ';' :: ' ' :: line := by
        simpa using hlines line List.mem_cons_self
      refine ⟨_, _, ?_, passes_comment hmark, rfl⟩
      rw [lineChars, Transcript.line, if_neg hempty, String.toList_append, List.append_assoc,
        ← hjoin, List.flatMap_cons]
      simp only [List.cons_append, List.append_assoc, List.tail_cons]
      rfl

theorem passes_entry {x : Sexp} (hcommand : x.isComment = false → read x.print = .ok x)
    (hcomment : ∀ s, x = .comment s → Quiet s) :
    ∃ xs, Passes (lineChars x) xs ∧ commands xs = commands [x] := by
  cases hx : x.isComment with
  | false =>
    rw [lineChars_command hx]
    exact ⟨[x], passes_line (hcommand hx), rfl⟩
  | true =>
    cases x with
    | num | sym | list => cases hx
    | comment s =>
      obtain ⟨first, xs, htext, hfirst, hxs⟩ := lineChars_comment s
      obtain ⟨ys, hlater, hys⟩ := passes_remarks
        (fun line hline => (lines_splitOn s.toList).2 line (List.mem_of_mem_tail hline))
        (hcomment s rfl)
      refine ⟨xs ++ ys, htext ▸ hfirst.append hlater, ?_⟩
      rw [commands_append, hxs, hys]
      rfl

/-- Commands that are read back alone are read back in a transcript with quiet comments. -/
theorem passes_entries {entries : List Sexp}
    (hcommands : ∀ x ∈ entries, x.isComment = false → read x.print = .ok x)
    (hcomments : ∀ s, .comment s ∈ entries → Quiet s) :
    ∃ xs, Passes (entries.flatMap lineChars) xs ∧ commands xs = commands entries := by
  induction entries with
  | nil => exact ⟨[], passes_blanks rfl, rfl⟩
  | cons x entries ih =>
    obtain ⟨hcommand, hcommands⟩ := List.forall_mem_cons.1 hcommands
    obtain ⟨xs, hpass, hxs⟩ := passes_entry hcommand fun s hs =>
      hcomments s (hs ▸ List.mem_cons_self)
    obtain ⟨ys, hpasses, hys⟩ := ih hcommands fun s hs => hcomments s (List.mem_cons_of_mem x hs)
    refine ⟨xs ++ ys, hpass.append hpasses, ?_⟩
    rw [commands_append, hxs, hys, ← commands_append, List.singleton_append]

theorem replays_of_quiet {t : Transcript}
    (hcommands : ∀ x ∈ t.entries, x.isComment = false → read x.print = .ok x)
    (hcomments : ∀ s, .comment s ∈ t.entries → Quiet s) : t.Replays := by
  obtain ⟨xs, hpass, hxs⟩ := passes_entries hcommands hcomments
  rw [Replays, render_eq, hpass.readAll_eq, ← hxs]
  rfl

/-- A note that is not quiet adds a command, or something that cannot be read. -/
theorem quiet_of_replays {t : Transcript}
    (hcommands : ∀ x ∈ t.entries, x.isComment = false → read x.print = .ok x)
    (hcomments : ∀ s, .comment s ∈ t.entries → Quiet s) {note : String}
    (h : (t.annotate note).Replays) : Quiet note := by
  by_contra hquiet
  obtain ⟨xs, hpass, hxs⟩ := passes_entries hcommands hcomments
  obtain ⟨first, ys, htext, hfirst, hys⟩ := lineChars_comment note
  obtain ⟨cs, zs, c, rest, hlater, hremarks, hzs, hblank, hc⟩ := exists_stray
    (fun line hline => (lines_splitOn note.toList).2 line (List.mem_of_mem_tail hline)) hquiet
  -- everything before the stray character is read as the commands recorded so far
  have hbreak : Passes ['\n'] [] := passes_blanks rfl
  have hbefore := ((hpass.append hbreak).append hfirst).append hremarks
  have hrender : (t.annotate note).render = String.ofList
      (t.entries.flatMap lineChars ++ ['\n'] ++ first ++ cs ++ c :: rest) := by
    rw [render_eq, List.append_assoc _ cs, ← hlater, List.append_assoc _ first, ← htext]
    simp only [annotate, append, List.flatMap_append, List.flatMap_singleton]
    rfl
  rw [Replays, hrender] at h
  obtain ⟨all, hread, heq⟩ := map_eq_ok.1 h
  obtain ⟨y, more, hy, rfl⟩ := hbefore.exists_of_readAll hblank hc hread
  have hlength := congrArg List.length heq
  have hentries : commands (t.annotate note).entries = commands t.entries := by
    simp only [annotate, append, commands_append]
    exact (List.append_nil _).trans (List.append_nil _)
  rw [hentries, commands_append, commands_append, commands_append, commands_append, hxs, hys, hzs]
    at hlength
  simp [commands, hy] at hlength

/-- A transcript of commands that are read back alone and of quiet comments gives back what was
recorded. Exactly the quiet texts can be noted next without changing what is replayed. -/
theorem replays_iff_note_quiet (t : Transcript)
    (hcommands : ∀ x ∈ t.entries, x.isComment = false → read x.print = .ok x)
    (hcomments : ∀ s, .comment s ∈ t.entries → Quiet s) :
    t.Replays ∧ ∀ note, (t.annotate note).Replays ↔ Quiet note := by
  refine ⟨replays_of_quiet hcommands hcomments, fun note => ?_⟩
  refine ⟨quiet_of_replays hcommands hcomments, fun hnote => replays_of_quiet ?_ ?_⟩
  · intro x hx hcommand
    simp only [annotate, append, List.mem_append, List.mem_singleton] at hx
    rcases hx with (hx | rfl) | rfl
    · exact hcommands x hx hcommand
    · cases hcommand
    · cases hcommand
  · intro s hs
    simp only [annotate, append, List.mem_append, List.mem_singleton, Sexp.comment.injEq] at hs
    rcases hs with (hs | rfl) | rfl
    · exact hcomments s hs
    · decide +kernel
    · exact hnote

/-- A query behind the solver's command line, with a remark inside a command. -/
def remarked : Transcript where
  entries := [.comment "z3 -in\n;; 4.8", .app "push" [.num 1],
    .list [.comment "(", .sym "check-sat"], .comment ""]

theorem remarked_replays :
    remarked.Replays ∧ (remarked.annotate "so\n\n ; far").Replays ∧
      ¬(remarked.annotate "so\nfar").Replays := by
  have hcommands : ∀ x ∈ remarked.entries, x.isComment = false → read x.print = .ok x := by
    decide +kernel
  have hcomments : ∀ s, .comment s ∈ remarked.entries → Quiet s := by
    intro s hs
    simp only [remarked, Sexp.app, List.mem_cons, Sexp.comment.injEq, reduceCtorEq, false_or,
      List.not_mem_nil, or_false] at hs
    rcases hs with rfl | rfl
    · decide +kernel
    · decide +kernel
  obtain ⟨hreplays, hnote⟩ := replays_iff_note_quiet remarked hcommands hcomments
  refine ⟨hreplays, (hnote _).2 (by decide +kernel), fun h => ?_⟩
  exact absurd ((hnote _).1 h) (by decide +kernel)

/-- The second line of a note is replayed as a command that was never sent, or stops the replay. -/
theorem noted_pop_replayed :
    let t : Transcript := { entries := [.app "push" [.num 1]] }
    (∀ x ∈ t.entries, read x.print = .ok x) ∧
      (readAll (t.annotate "undo\n(pop 1)").render).map commands =
        .ok [.app "push" [.num 1], .app "pop" [.num 1]] ∧
      ¬(t.annotate "undo\n(pop 1)").Replays ∧
      (readAll (t.annotate "undo\n)").render).toOption = none := by
  decide +kernel

end LoopInvariant.Solver.Transcript
