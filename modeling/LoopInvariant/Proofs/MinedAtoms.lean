import LoopInvariant.Datapoint
import LoopInvariant.Proofs.BodyNames
/-!
# Mined atoms

The atoms of a clause system are collected from unrolled and simplified bodies, and the versions are
taken off their variables afterwards. What comes out are the comparisons that the program itself
assumes: an assignment is unrolled into a definition, which is passed over, and an assumed condition
is found again by taking its versions off. Only a body that contains `false` hides the conditions
beside it. As long as versions are read back, an atom is therefore over declared variables, and
nothing else decides its value.
-/

namespace LoopInvariant

open ClauseSystem

/-! ## Comparisons in a term -/

/-- A comparison that stands in a term below junctions and negations only. An equality with a
variable on the left is a definition and does not count. -/
inductive Term.IsComparisonOf (u : Term) : Term → Prop where
  | here (hatom : u.isAtom = true) (hdefinition : ∀ x e, u ≠ .bin .equals (.var x) e) :
      IsComparisonOf u u
  | not {t : Term} (h : IsComparisonOf u t) : IsComparisonOf u (.not t)
  | nary (op : Junction) {t : Term} {ts : List Term} (ht : t ∈ ts) (h : IsComparisonOf u t) :
      IsComparisonOf u (.nary op ts)

namespace Term

theorem isAtom_rename (f : String → String) (t : Term) : (t.rename f).isAtom = t.isAtom := by
  cases t with
  | bin op l r => cases op <;> rfl
  | _ => rfl

namespace IsComparisonOf

variable {t u : Term}

theorem isAtom (h : u.IsComparisonOf t) : u.isAtom = true := by
  induction h with
  | here hatom => exact hatom
  | not _ ih | nary _ _ _ ih => exact ih

theorem mem_occurrences (h : u.IsComparisonOf t) {x : String} (hx : x ∈ u.occurrences) :
    x ∈ t.occurrences := by
  induction h with
  | here => exact hx
  | not _ ih => exact ih
  | nary op ht _ ih => exact mem_occurrencesList.2 ⟨_, ht, ih⟩

theorem rename (h : u.IsComparisonOf t) (f : String → String) :
    (u.rename f).IsComparisonOf (t.rename f) := by
  induction h with
  | here hatom hdefinition =>
    refine .here (by rw [isAtom_rename, hatom]) fun x e heq => ?_
    -- a renamed definition was one before
    cases u with
    | bin op l r =>
      cases l with
      | var y =>
        simp only [Term.rename, bin.injEq] at heq
        exact hdefinition y r (by rw [heq.1])
      | _ => simp [Term.rename] at heq
    | _ => cases heq
  | not _ ih => exact .not ih
  | nary op ht _ ih =>
    rw [Term.rename, renameList_eq_map]
    exact .nary op (List.mem_map_of_mem ht) ih

theorem not_lit {b : Bool} : ¬u.IsComparisonOf (lit b) := by
  intro h
  cases h with
  | here hatom => cases hatom

theorem not_definition {x : String} {e : Term} : ¬u.IsComparisonOf (equals (var x) e) := by
  intro h
  cases h with
  | here _ hdefinition => exact hdefinition x e rfl

theorem nary_iff {op : Junction} {ts : List Term} :
    u.IsComparisonOf (Term.nary op ts) ↔ ∃ t ∈ ts, u.IsComparisonOf t := by
  constructor
  · intro h
    cases h with
    | here hatom => cases hatom
    | nary _ ht h => exact ⟨_, ht, h⟩
  · rintro ⟨t, ht, h⟩
    exact .nary op ht h

/-- A simplified junction keeps the comparisons of its operands unless one of them decides. -/
theorem junction_iff {op : Junction} {ts : List Term} :
    u.IsComparisonOf (junction op ts) ↔
      lit op.absorbing ∉ ts ∧ ∃ t ∈ ts, u.IsComparisonOf t :=
  junction_iff_exists (fun _ => not_lit) fun _ => nary_iff

end IsComparisonOf

mutual

theorem isComparisonOf_of_mem_atomsOf {u : Term} :
    ∀ {t : Term}, u ∈ atomsOf t → u.IsComparisonOf t
  | nary op ts, h => by
    obtain ⟨t, ht, h⟩ := exists_isComparisonOf_of_mem h
    exact .nary op ht h
  | not t, h => .not (isComparisonOf_of_mem_atomsOf (t := t) h)
  | rel op l r, h => by
    cases List.mem_singleton.1 h
    exact .here rfl fun x e heq => by cases heq
  | bin op l r, h => by
    rw [atomsOf.eq_def] at h
    split at h
    · next heq => cases heq
    · next heq => cases heq
    · cases h
    · next hdefinition =>
      split at h
      · next hatom =>
        cases List.mem_singleton.1 h
        exact .here hatom hdefinition
      · cases h
  | lit _, h | int _, h | var _, h | neg _, h | arith _ _ _, h | ite _ _ _, h => by cases h

theorem exists_isComparisonOf_of_mem {u : Term} :
    ∀ {ts : List Term}, u ∈ atomsOf.atomsOfList ts → ∃ t ∈ ts, u.IsComparisonOf t
  | [], h => by cases h
  | t :: ts, h => by
    rcases List.mem_append.1 h with h | h
    · exact ⟨t, List.mem_cons_self, isComparisonOf_of_mem_atomsOf h⟩
    · obtain ⟨v, hv, h⟩ := exists_isComparisonOf_of_mem h
      exact ⟨v, List.mem_cons_of_mem t hv, h⟩

end

theorem mem_atomsOf_iff {t u : Term} : u ∈ atomsOf t ↔ u.IsComparisonOf t := by
  refine ⟨isComparisonOf_of_mem_atomsOf, fun h => ?_⟩
  induction h with
  | here hatom hdefinition =>
    rw [atomsOf.eq_def]
    split
    · cases hatom
    · cases hatom
    · next x e => exact absurd rfl (hdefinition x e)
    · rw [if_pos hatom]
      exact List.mem_singleton.2 rfl
  | not _ ih => exact ih
  | nary op ht _ ih => exact mem_atomsOfList.2 ⟨_, ht, ih⟩

end Term

/-! ## Comparisons in a body -/

theorem Indexing.Readable.rename_baseName {ix : Indexing} (hix : ix.Readable) (t : Term) :
    (ix.instantiate t).rename baseName = t := by
  refine Term.rename_of_undoes fun x _ => ?_
  rw [name, baseName, unversioned?_versioned, if_pos (hix x)]
  rfl

theorem Indexing.Readable.comparison_instantiate {ix : Indexing} (hix : ix.Readable)
    (t cond : Term) :
    (∃ u : Term, u.IsComparisonOf (ix.instantiate cond) ∧ u.rename baseName = t) ↔
      t.IsComparisonOf cond := by
  constructor
  · rintro ⟨u, h, rfl⟩
    have hbase := h.rename baseName
    rwa [hix.rename_baseName] at hbase
  · intro h
    exact ⟨ix.instantiate t, h.rename ix.name, hix.rename_baseName t⟩

/-- Without their versions, the comparisons in the effects of statements are those that the
statements assume. -/
theorem comparison_effects {ix : Indexing} {stmts : List Statement}
    (hlast : (effects ix stmts).2.Readable) {t : Term} :
    (∃ u : Term, (∃ v ∈ (effects ix stmts).1, u.IsComparisonOf v) ∧ u.rename baseName = t) ↔
      ∃ cond, .assume cond ∈ stmts ∧ t.IsComparisonOf cond := by
  induction stmts generalizing ix with
  | nil => simp [effects]
  | cons st rest ih =>
    have hix : ix.Readable := fun x => Nat.lt_of_le_of_lt (get_effects ix _ x).1 (hlast x)
    cases st with
    | assign x e =>
      have hrest : (effects (ix.bump x) rest).2.Readable := hlast
      simpa [effects, Term.IsComparisonOf.not_definition] using ih hrest
    | assume cond =>
      have hrest : (effects ix rest).2.Readable := hlast
      have hhead := hix.comparison_instantiate t cond
      simp only [effects, List.mem_cons, or_and_right, exists_or, ih hrest, hhead,
        Statement.assume.injEq, exists_eq_left]
    | havoc x =>
      have hrest : (effects (ix.bump x) rest).2.Readable := hlast
      simpa [effects] using ih hrest

theorem lit_mem_effects_iff {ix : Indexing} {stmts : List Statement} {b : Bool} :
    .lit b ∈ (effects ix stmts).1 ↔ .assume (.lit b) ∈ stmts := by
  induction stmts generalizing ix with
  | nil => simp [effects]
  | cons st rest ih =>
    cases st with
    | assign x e => simp [effects, Term.equals, ih]
    | assume cond =>
      have hlit : .lit b = ix.instantiate cond ↔ .lit b = cond := by
        cases cond <;> simp [Indexing.instantiate, Term.rename]
      simp [effects, ih, hlit]
    | havoc x => simp [effects, ih]

def Clause.Assumes (c : Clause) (a : Automaton) (cond : Term) : Prop :=
  .assume cond ∈ c.edges.flatMap a.stmts

theorem Clause.comparison_body {a : Automaton} {seg : Segment} {c : Clause}
    (hc : ofSegment a seg = .ok c) (hreadable : c.indexing.Readable) {t : Term} :
    (∃ u : Term, u.IsComparisonOf c.body ∧ u.rename baseName = t) ↔
      ¬c.Assumes a (.lit false) ∧ ∃ cond, c.Assumes a cond ∧ t.IsComparisonOf cond := by
  have hencodes := encodes_of_ofSegment hc
  rw [hencodes.indexing_eq] at hreadable
  have hbody : c.body = .junction .and (effects .initial (seg.edges.flatMap a.stmts)).1 :=
    hencodes.body_eq
  simp only [hbody, Term.IsComparisonOf.junction_iff, and_assoc, exists_and_left,
    comparison_effects hreadable, Junction.absorbing, lit_mem_effects_iff, Assumes,
    edges_of_ofSegment hc]

/-! ## Atoms of a program -/

namespace ClauseSystem

theorem nodup_atoms (s : ClauseSystem) : s.atoms.Nodup := nodup_eraseDups _

theorem mem_atoms_iff {s : ClauseSystem} {t : Term} :
    t ∈ s.atoms ↔ t.vars ≠ [] ∧
      ∃ c ∈ s.clauses, ∃ u : Term, u.IsComparisonOf c.body ∧ u.rename baseName = t := by
  rw [atoms, List.mem_eraseDups, List.mem_filter, List.mem_map, and_comm]
  simp only [Term.mem_sortUnique, List.mem_flatMap, Term.mem_atomsOf_iff]
  refine and_congr (by simp) ⟨?_, ?_⟩
  · rintro ⟨u, ⟨c, hc, h⟩, heq⟩
    exact ⟨c, hc, u, h, heq⟩
  · rintro ⟨c, hc, u, h, heq⟩
    exact ⟨u, ⟨c, hc, h⟩, heq⟩

theorem isAtom_of_mem_atoms {s : ClauseSystem} {t : Term} (ht : t ∈ s.atoms) :
    t.isAtom = true := by
  obtain ⟨-, c, -, u, h, rfl⟩ := mem_atoms_iff.1 ht
  rw [Term.isAtom_rename, h.isAtom]

variable {a : Automaton} {s : ClauseSystem}

/-- The atoms are the comparisons in assumed conditions, if they have a variable, except beside an
assumed `false`. -/
theorem mem_atoms_iff_assumed (hwf : a.WellFormed) (hs : ofAutomaton a = .ok s)
    (hlength : (a.edges.flatMap (·.stmts)).length < 18446744073709551616) {t : Term} :
    t ∈ s.atoms ↔ t.vars ≠ [] ∧ ∃ c ∈ s.clauses, ¬c.Assumes a (.lit false) ∧
      ∃ cond, c.Assumes a cond ∧ t.IsComparisonOf cond := by
  obtain ⟨-, d, hd, hclauses, -⟩ := mem_clauses_of_ofAutomaton hs
  rw [mem_atoms_iff]
  refine and_congr_right fun _ => exists_congr fun c => and_congr_right fun hc => ?_
  obtain ⟨seg, hseg, hof⟩ := hclauses c hc
  have hreadable := (Clause.encodes_of_ofSegment hof).readable hwf hd hlength hseg
  exact Clause.comparison_body hof hreadable

theorem mem_names_of_atoms (hwf : a.WellFormed) (hs : ofAutomaton a = .ok s)
    (hlength : (a.edges.flatMap (·.stmts)).length < 18446744073709551616) {t : Term}
    (ht : t ∈ s.atoms) {x : String} (hx : x ∈ t.occurrences) : x ∈ a.names := by
  obtain ⟨-, c, -, -, cond, hassumes, h⟩ := (mem_atoms_iff_assumed hwf hs hlength).1 ht
  exact Automaton.mem_names_of_stmts hwf hassumes (Term.mem_vars_iff.2 (h.mem_occurrences hx))

end ClauseSystem

/-- The name of a declared variable is no version. -/
theorem Automaton.WellFormed.ne_versioned {a : Automaton} (hwf : a.WellFormed) {x : String}
    (hx : x ∈ a.names) (y : String) (k : Nat) : x ≠ versioned y k := by
  rintro rfl
  apply hwf.plain _ hx
  rw [toList_versioned]
  exact List.mem_append_right _ List.mem_cons_self

/-- Atoms are predicates that can be asked of any state of the program. No atom is listed twice, and
each is a comparison, an equality or a disequality with at least one variable. As in any program that
is held in memory, let there be fewer than `2 ^ 64` statements: then the atoms are the comparisons
that the program assumes, except beside an assumed `false`. They mention declared variables only and
no version of one, and once a datapoint gives values to those, what else may be known decides nothing
about an atom. -/
theorem mined_atoms_usable {description : Description} {a : Automaton} {s : ClauseSystem}
    (ha : Automaton.ofDescription description = .ok a) (hs : ofAutomaton a = .ok s) :
    s.atoms.Nodup ∧ (∀ t ∈ s.atoms, t.isAtom = true ∧ t.vars ≠ []) ∧
      ((a.edges.flatMap (·.stmts)).length < 18446744073709551616 →
        (∀ t, t ∈ s.atoms ↔ t.vars ≠ [] ∧ ∃ c ∈ s.clauses, ¬c.Assumes a (.lit false) ∧
          ∃ cond, c.Assumes a cond ∧ t.IsComparisonOf cond) ∧
        ∀ t ∈ s.atoms, (∀ x ∈ t.vars, x ∈ a.names ∧ ∀ y k, x ≠ versioned y k) ∧
          ∀ p : Datapoint, (∀ x ∈ a.names, ∃ v, p.valuation.get? x = some v) →
            ∀ env : Env, env.Extends p.valuation.get? → t.eval env = t.eval p.valuation.get?) := by
  have hwf := Automaton.wellFormed_of_ofDescription ha
  refine ⟨s.nodup_atoms, fun t ht => ⟨isAtom_of_mem_atoms ht, (mem_atoms_iff.1 ht).1⟩,
    fun hlength => ⟨fun t => mem_atoms_iff_assumed hwf hs hlength, fun t ht => ?_⟩⟩
  have hnames : ∀ x ∈ t.occurrences, x ∈ a.names := fun x => mem_names_of_atoms hwf hs hlength ht
  refine ⟨fun x hx => ?_, fun p hp env henv => Term.eval_congr t fun x hx => ?_⟩
  · have hdeclared := hnames x (Term.mem_vars_iff.1 hx)
    exact ⟨hdeclared, hwf.ne_versioned hdeclared⟩
  · obtain ⟨v, hv⟩ := hp x (hnames x hx)
    rw [hv, henv x v hv]

def comparingLoop : Automaton where
  decls := [⟨"x", .int⟩, ⟨"y", .int⟩]
  locations := ["start", "loop", "bad"]
  entry := 0
  error := 2
  edges := [⟨0, 1, [.assign "x" (.int 0)]⟩,
    ⟨1, 1, [.assume (.rel .lt (.var "x") (.var "y")),
      .assign "x" (.arith .add (.var "x") (.int 1)),
      .assume (.nary .or [.not (.rel .lt (.var "x") (.var "y")), .lit true])]⟩,
    ⟨1, 2, [.assume (.bin .notEquals (.var "x") (.int 0))]⟩]

/-- The comparison at two versions is one atom, and a state at the loop decides it. -/
theorem comparingLoop_atoms :
    ∃ s, ofAutomaton comparingLoop = .ok s ∧ s.atoms.Nodup ∧
      .rel .lt (.var "x") (.var "y") ∈ s.atoms ∧
      ∀ env : Env, env.Extends (SortedMap.ofList [("x", Value.int 1), ("y", .int 2)]).get? →
        (Term.rel .lt (.var "x") (.var "y")).eval env = some (.bool true) := by
  have ha : Automaton.ofDescription comparingLoop.describe = .ok comparingLoop := rfl
  have hclauses : ∃ s, ofAutomaton comparingLoop = .ok s ∧ ∃ c ∈ s.clauses, c.edges = [1] :=
    ⟨_, rfl, by decide +kernel⟩
  obtain ⟨s, hs, c, hc, hedges⟩ := hclauses
  obtain ⟨hnodup, -, husable⟩ := mined_atoms_usable ha hs
  obtain ⟨hmem, hvalues⟩ := husable (by decide)
  have hatom : .rel .lt (.var "x") (.var "y") ∈ s.atoms := by
    refine (hmem _).2 ⟨by decide +kernel, c, hc, ?_, .rel .lt (.var "x") (.var "y"), ?_,
      .here rfl fun x e heq => by cases heq⟩
    · rw [Clause.Assumes, hedges]
      decide +kernel
    · rw [Clause.Assumes, hedges]
      decide +kernel
  refine ⟨s, hs, hnodup, hatom, fun env henv => ?_⟩
  have heval := (hvalues _ hatom).2 ⟨1, .ofList [("x", .int 1), ("y", .int 2)]⟩ (fun x hx => ?_) env
    henv
  · rw [heval]
    decide +kernel
  · have hgiven : ∀ x ∈ comparingLoop.names,
        ((SortedMap.ofList [("x", Value.int 1), ("y", .int 2)]).get? x).isSome := by
      decide +kernel
    exact Option.isSome_iff_exists.1 (hgiven x hx)

end LoopInvariant
