import LoopInvariant.Proofs.Description
import LoopInvariant.Proofs.Segment
import LoopInvariant.Proofs.Sorting
/-!
# Which descriptions are accepted

A description is accepted exactly if it is valid: names are declared once, no variable is named like
a version, and nothing is mentioned that is not declared. Where a variable may be mentioned is said
position by position, without collecting anything. An accepted description is kept as it is, and
the successors of a location are its described edges in the order of the description.
-/

namespace LoopInvariant

/-! ## Mentioned variables -/

inductive Term.Occurs (x : String) : Term → Prop where
  | var : Occurs x (.var x)
  | not {t : Term} (h : Occurs x t) : Occurs x (.not t)
  | neg {t : Term} (h : Occurs x t) : Occurs x (.neg t)
  | binLeft {op : Connective} {l r : Term} (h : Occurs x l) : Occurs x (.bin op l r)
  | binRight {op : Connective} {l r : Term} (h : Occurs x r) : Occurs x (.bin op l r)
  | arithLeft {op : Arith} {l r : Term} (h : Occurs x l) : Occurs x (.arith op l r)
  | arithRight {op : Arith} {l r : Term} (h : Occurs x r) : Occurs x (.arith op l r)
  | relLeft {op : Relation} {l r : Term} (h : Occurs x l) : Occurs x (.rel op l r)
  | relRight {op : Relation} {l r : Term} (h : Occurs x r) : Occurs x (.rel op l r)
  | operand {op : Junction} {ts : List Term} {t : Term} (ht : t ∈ ts) (h : Occurs x t) :
      Occurs x (.nary op ts)
  | condition {c t e : Term} (h : Occurs x c) : Occurs x (.ite c t e)
  | thenBranch {c t e : Term} (h : Occurs x t) : Occurs x (.ite c t e)
  | elseBranch {c t e : Term} (h : Occurs x e) : Occurs x (.ite c t e)

inductive Statement.Writes (x : String) : Statement → Prop where
  | assign (t : Term) : Writes x (.assign x t)
  | havoc : Writes x (.havoc x)

inductive Statement.Reads (x : String) : Statement → Prop where
  | assign (y : String) {t : Term} (h : t.Occurs x) : Reads x (.assign y t)
  | assume {t : Term} (h : t.Occurs x) : Reads x (.assume t)

/-- A description in which everything is declared properly. -/
structure Description.Valid (d : Description) : Prop where
  variables_nodup : (d.decls.map (·.name)).Nodup
  plain : ∀ v ∈ d.decls, '@' ∉ v.name.toList
  locations_nodup : d.locations.Nodup
  entry_mem : d.entry ∈ d.locations
  error_mem : d.error ∈ d.locations
  source_mem : ∀ e ∈ d.edges, e.source ∈ d.locations
  target_mem : ∀ e ∈ d.edges, e.target ∈ d.locations
  written : ∀ e ∈ d.edges, ∀ st ∈ e.stmts, ∀ x, st.Writes x → x ∈ d.decls.map (·.name)
  read : ∀ e ∈ d.edges, ∀ st ∈ e.stmts, ∀ x, st.Reads x → x ∈ d.decls.map (·.name)

/-- What a description says of the edges that leave a location: these edges with their targets and
no others, in the order of the description. -/
structure Description.Leaving (d : Description) (l : Loc) (out : List (Nat × Loc)) : Prop where
  ordered : out.Pairwise fun p q => p.1 < q.1
  mem_iff : ∀ i m, (i, m) ∈ out ↔ ∃ e, d.edges[i]? = some e ∧ d.locations[l]? = some e.source ∧
    d.locations[m]? = some e.target

namespace Term

variable {x : String}

theorem Occurs.mem_occurrences {t : Term} (h : t.Occurs x) : x ∈ t.occurrences := by
  induction h with
  | var => exact List.mem_singleton_self x
  | not _ ih | neg _ ih => exact ih
  | binLeft _ ih | arithLeft _ ih | relLeft _ ih => exact List.mem_append_left _ ih
  | binRight _ ih | arithRight _ ih | relRight _ ih => exact List.mem_append_right _ ih
  | operand ht _ ih => exact mem_occurrencesList.2 ⟨_, ht, ih⟩
  | condition _ ih => exact List.mem_append_left _ (List.mem_append_left _ ih)
  | thenBranch _ ih => exact List.mem_append_left _ (List.mem_append_right _ ih)
  | elseBranch _ ih => exact List.mem_append_right _ ih

mutual

theorem occurs_of_mem_occurrences : ∀ {t : Term}, x ∈ t.occurrences → t.Occurs x
  | lit _, h | int _, h => by cases h
  | var _, h => by
    cases List.mem_singleton.1 h
    exact .var
  | not _, h => .not (occurs_of_mem_occurrences h)
  | neg _, h => .neg (occurs_of_mem_occurrences h)
  | bin _ _ _, h => (List.mem_append.1 h).elim
    (fun h => .binLeft (occurs_of_mem_occurrences h))
    (fun h => .binRight (occurs_of_mem_occurrences h))
  | arith _ _ _, h => (List.mem_append.1 h).elim
    (fun h => .arithLeft (occurs_of_mem_occurrences h))
    (fun h => .arithRight (occurs_of_mem_occurrences h))
  | rel _ _ _, h => (List.mem_append.1 h).elim
    (fun h => .relLeft (occurs_of_mem_occurrences h))
    (fun h => .relRight (occurs_of_mem_occurrences h))
  | nary _ ts, h => by
    obtain ⟨t, ht, hx⟩ := exists_occurs_of_mem_occurrencesList h
    exact .operand ht hx
  | ite _ _ _, h => by
    rcases List.mem_append.1 h with h | h
    · rcases List.mem_append.1 h with h | h
      · exact .condition (occurs_of_mem_occurrences h)
      · exact .thenBranch (occurs_of_mem_occurrences h)
    · exact .elseBranch (occurs_of_mem_occurrences h)

theorem exists_occurs_of_mem_occurrencesList :
    ∀ {ts : List Term}, x ∈ occurrencesList ts → ∃ t ∈ ts, t.Occurs x
  | [], h => by cases h
  | t :: ts, h => by
    rcases List.mem_append.1 h with h | h
    · exact ⟨t, List.mem_cons_self, occurs_of_mem_occurrences h⟩
    · obtain ⟨u, hu, hx⟩ := exists_occurs_of_mem_occurrencesList h
      exact ⟨u, List.mem_cons_of_mem _ hu, hx⟩

end

theorem mem_vars_iff_occurs {t : Term} : x ∈ t.vars ↔ t.Occurs x :=
  mem_vars_iff.trans ⟨occurs_of_mem_occurrences, Occurs.mem_occurrences⟩

end Term

theorem Statement.mem_mentions_iff {x : String} {st : Statement} :
    x ∈ st.mentions ↔ st.Writes x ∨ st.Reads x := by
  cases st with
  | assign y t =>
    rw [mentions, List.mem_cons, Term.mem_vars_iff_occurs]
    constructor
    · rintro (rfl | h)
      · exact .inl (.assign t)
      · exact .inr (.assign y h)
    · rintro (h | h)
      · cases h
        exact .inl rfl
      · cases h with
        | assign _ h => exact .inr h
  | assume t =>
    rw [mentions, Term.mem_vars_iff_occurs]
    constructor
    · exact fun h => .inr (.assume h)
    · rintro (h | h)
      · cases h
      · cases h with
        | assume h => exact h
  | havoc y =>
    rw [mentions, List.mem_singleton]
    constructor
    · rintro rfl
      exact .inl .havoc
    · rintro (h | h)
      · cases h
        rfl
      · cases h

namespace Automaton

variable {d : Description} {a : Automaton}

/-! ## Acceptance -/

theorem exists_checkEdge {names locations : List String} {e : EdgeDescription} :
    (∃ checked, checkEdge names locations e = .ok checked) ↔
      (∀ st ∈ e.stmts, ∀ x ∈ st.mentions, x ∈ names) ∧ e.source ∈ locations ∧
        e.target ∈ locations := by
  simp only [checkEdge_eq_ok, ← exists_number]
  constructor
  · rintro ⟨checked, hdeclared, hsource, htarget, -⟩
    exact ⟨hdeclared, ⟨_, hsource⟩, ⟨_, htarget⟩⟩
  · rintro ⟨hdeclared, ⟨source, hsource⟩, ⟨target, htarget⟩⟩
    exact ⟨⟨source, target, e.stmts⟩, hdeclared, hsource, htarget, rfl⟩

/-- The checks stop at the first fault, and a description without faults passes them all. -/
theorem exists_ofDescription : (∃ a, ofDescription d = .ok a) ↔ d.Valid := by
  simp only [ofDescription_eq_ok]
  constructor
  · rintro ⟨a, hvariables, hlocations, hedges, hentry, herror, -⟩
    obtain ⟨hplain, hnodup, -⟩ := checkVariables_eq_ok.1 hvariables
    have hedge := fun e he => exists_checkEdge.1 (exists_mapM_eq_ok.1 ⟨_, hedges⟩ e he)
    exact {
      variables_nodup := hnodup
      plain := hplain
      locations_nodup := (checkLocations_eq_ok.1 hlocations).1
      entry_mem := exists_number.1 ⟨_, hentry⟩
      error_mem := exists_number.1 ⟨_, herror⟩
      source_mem := fun e he => (hedge e he).2.1
      target_mem := fun e he => (hedge e he).2.2
      written := fun e he st hst x hx =>
        (hedge e he).1 st hst x (Statement.mem_mentions_iff.2 (.inl hx))
      read := fun e he st hst x hx =>
        (hedge e he).1 st hst x (Statement.mem_mentions_iff.2 (.inr hx)) }
  · intro h
    have hvariables : checkVariables [] d.decls = .ok () :=
      checkVariables_eq_ok.2 ⟨h.plain, h.variables_nodup, by simp⟩
    have hlocations : checkLocations [] d.locations = .ok () :=
      checkLocations_eq_ok.2 ⟨h.locations_nodup, by simp⟩
    have hedge : ∀ e ∈ d.edges,
        ∃ checked, checkEdge (d.decls.map (·.name)) d.locations e = .ok checked := by
      intro e he
      refine exists_checkEdge.2 ⟨fun st hst x hx => ?_, h.source_mem e he, h.target_mem e he⟩
      exact (Statement.mem_mentions_iff.1 hx).elim (h.written e he st hst x) (h.read e he st hst x)
    obtain ⟨edges, hedges⟩ := exists_mapM_eq_ok.2 hedge
    obtain ⟨entry, hentry⟩ := exists_number.2 h.entry_mem
    obtain ⟨error, herror⟩ := exists_number.2 h.error_mem
    exact ⟨⟨d.decls, d.locations, entry, error, edges⟩, hvariables, hlocations, hedges, hentry,
      herror, rfl, rfl⟩

/-! ## Edges in order -/

theorem pairwise_successors (a : Automaton) (l : Loc) :
    (a.successors l).Pairwise fun p q => p.1 < q.1 := by
  have hzip : a.edges.zipIdx.Pairwise fun p q => p.2 < q.2 := by
    rw [← List.pairwise_map (f := Prod.snd), List.zipIdx_map_snd]
    exact List.pairwise_lt_range'
  exact List.pairwise_map.2 (hzip.filter _)

theorem number_eq_ok_iff {locations : List String} (hnodup : locations.Nodup) {name : String}
    {l : Loc} : number locations name = .ok l ↔ locations[l]? = some name := by
  refine ⟨getElem?_of_number, fun h => ?_⟩
  obtain ⟨k, hk⟩ := exists_number.2 (List.mem_of_getElem? h)
  obtain ⟨hlt, -⟩ := List.getElem?_eq_some_iff.1 h
  rwa [(List.getElem?_inj hlt hnodup).1 (h.trans (getElem?_of_number hk).symm)]

theorem getElem?_edges (h : ofDescription d = .ok a) {i : Nat} {e : Edge} :
    a.edges[i]? = some e ↔ ∃ described, d.edges[i]? = some described ∧
      d.locations[e.source]? = some described.source ∧
      d.locations[e.target]? = some described.target ∧ described.stmts = e.stmts := by
  have hvalid := exists_ofDescription.1 ⟨a, h⟩
  obtain ⟨-, -, hedges, -⟩ := ofDescription_eq_ok.1 h
  simp only [getElem?_of_mapM_eq_ok hedges, checkEdge_eq_ok, number_eq_ok_iff hvalid.locations_nodup]
  constructor
  · rintro ⟨described, hi, -, hends⟩
    exact ⟨described, hi, hends⟩
  · rintro ⟨described, hi, hends⟩
    have hmem := List.mem_of_getElem? hi
    refine ⟨described, hi, fun st hst x hx => ?_, hends⟩
    exact (Statement.mem_mentions_iff.1 hx).elim (hvalid.written _ hmem st hst x)
      (hvalid.read _ hmem st hst x)

theorem leaving_successors (h : ofDescription d = .ok a) (l : Loc) :
    d.Leaving l (a.successors l) where
  ordered := pairwise_successors a l
  mem_iff i m := by
    simp only [mem_successors, getElem?_edges h]
    constructor
    · rintro ⟨e, ⟨described, hi, hsource, htarget, -⟩, rfl, rfl⟩
      exact ⟨described, hi, hsource, htarget⟩
    · rintro ⟨described, hi, hsource, htarget⟩
      exact ⟨⟨l, m, described.stmts⟩, ⟨described, hi, hsource, htarget, rfl⟩, rfl, rfl⟩

/-- Descriptions are checked exactly and kept exactly. A description is accepted if and only if it is
valid. The automaton is then described by it, and from each location the described edges lead on, in
order and with the described statements. -/
theorem accepted_iff_valid_and_kept (d : Description) :
    ((∃ a, ofDescription d = .ok a) ↔ d.Valid) ∧
    ∀ a, ofDescription d = .ok a → a.describe = d ∧
      (∀ l, d.Leaving l (a.successors l)) ∧
      ∀ i e, d.edges[i]? = some e → a.stmts i = e.stmts := by
  refine ⟨exists_ofDescription, fun a h => ⟨describe_of_ofDescription h, leaving_successors h, ?_⟩⟩
  intro i e hi
  have hedges : d.edges[i]? = a.edges[i]?.map fun e =>
      ⟨a.name e.source, a.name e.target, e.stmts⟩ := by
    rw [← describe_of_ofDescription h, describe, List.getElem?_map]
  rw [hedges] at hi
  obtain ⟨checked, hchecked, rfl⟩ := Option.map_eq_some_iff.1 hi
  rw [stmts, hchecked, Option.map_some, Option.getD_some]

/-- Two edges leave the same location, one of them with a variable in the last branch of a choice,
and a third one in between does not. -/
def forked : Description where
  decls := [⟨"x", .int⟩, ⟨"b", .bool⟩]
  locations := ["start", "loop", "error"]
  entry := "start"
  error := "error"
  edges := [⟨"loop", "loop", [.assign "x" (.ite (.var "b") (.int 0) (.var "x"))]⟩,
    ⟨"start", "loop", [.havoc "x"]⟩, ⟨"loop", "error", [.assume (.rel .lt (.var "x") (.int 0))]⟩]

/-- Both edges are listed in their order. -/
theorem forked_accepted :
    forked.Valid ∧ ∃ a, ofDescription forked = .ok a ∧ a.describe = forked ∧
      a.successors 1 = [(0, 1), (2, 2)] ∧ forked.Leaving 1 (a.successors 1) ∧
      a.stmts 2 = [.assume (.rel .lt (.var "x") (.int 0))] := by
  have haccepted : (ofDescription forked).toOption.map (·.successors 1) =
      some [(0, 1), (2, 2)] := by decide +kernel
  obtain ⟨a, ha, hsuccessors⟩ := Option.map_eq_some_iff.1 haccepted
  have hok := toOption_eq_some_iff.1 ha
  obtain ⟨hvalid, hkept⟩ := accepted_iff_valid_and_kept forked
  obtain ⟨hdescribe, hleaving, hstmts⟩ := hkept a hok
  exact ⟨hvalid.1 ⟨a, hok⟩, a, hok, hdescribe, hsuccessors, hleaving 1, hstmts 2 _ rfl⟩

end Automaton

end LoopInvariant
