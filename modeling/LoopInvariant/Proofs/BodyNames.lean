import LoopInvariant.Proofs.ClauseChain
import LoopInvariant.Proofs.Renaming
import LoopInvariant.Proofs.Sorting
/-!
# Names in clause bodies

The variables of a body are versions of declared variables, none of them later than the version that
the clause ends with. Building a conjunction adds no variable.
-/

namespace LoopInvariant

namespace Term

theorem mem_occurrences_junction {op : Junction} {ts : List Term} {x : String}
    (h : x ∈ (junction op ts).occurrences) : ∃ t ∈ ts, x ∈ t.occurrences := by
  have hlit : ∀ b, x ∉ (lit b).occurrences := fun _ => List.not_mem_nil
  have hnary : ∀ us, x ∈ (nary op us).occurrences ↔ ∃ u ∈ us, x ∈ u.occurrences :=
    fun us => mem_occurrencesList
  exact ((junction_iff_exists hlit hnary).1 h).2

end Term

/-- The conjuncts of an unrolled body are over versions of what its statements mention, up to the
last one. -/
theorem mem_occurrences_effects {ix : Indexing} {stmts : List Statement} {t : Term}
    (ht : t ∈ (effects ix stmts).1) {x : String} (hx : x ∈ t.occurrences) :
    ∃ st ∈ stmts, ∃ y ∈ st.mentions, ∃ k ≤ (effects ix stmts).2.get y, x = versioned y k := by
  induction stmts generalizing ix with
  | nil => cases ht
  | cons st rest ih =>
    have hlater : ∀ {ix' : Indexing}, t ∈ (effects ix' rest).1 → ∃ st' ∈ st :: rest,
        ∃ y ∈ st'.mentions, ∃ k ≤ (effects ix' rest).2.get y, x = versioned y k := by
      intro ix' ht
      obtain ⟨st', hst', hmentions⟩ := ih ht
      exact ⟨st', List.mem_cons_of_mem _ hst', hmentions⟩
    have hinstance : ∀ u : Term, (∀ y ∈ u.vars, y ∈ st.mentions) →
        x ∈ (ix.instantiate u).occurrences → ∃ st' ∈ st :: rest, ∃ y ∈ st'.mentions,
          ∃ k ≤ (effects ix (st :: rest)).2.get y, x = versioned y k := by
      intro u hu hx
      obtain ⟨y, hy, hname⟩ := Indexing.mem_occurrences_instantiate hx
      exact ⟨st, List.mem_cons_self, y, hu y hy, ix.get y, (get_effects ix _ y).1, hname⟩
    cases st with
    | assign y u =>
      rcases List.mem_cons.1 ht with rfl | ht
      · rcases List.mem_append.1 hx with hx | hx
        · have hlast := (get_effects (ix.bump y) rest y).1
          rw [ix.get_bump_self] at hlast
          exact ⟨_, List.mem_cons_self, y, List.mem_cons_self, _, hlast, List.mem_singleton.1 hx⟩
        · exact hinstance u (fun z => List.mem_cons_of_mem y) hx
      · exact hlater ht
    | assume u =>
      rcases List.mem_cons.1 ht with rfl | ht
      · exact hinstance u (fun _ => id) hx
      · exact hlater ht
    | havoc y => exact hlater ht

theorem Clause.mem_vars_body {a : Automaton} {s : ClauseSystem} {c : Clause} (hwf : a.WellFormed)
    (hs : ClauseSystem.ofAutomaton a = .ok s) (hc : c ∈ s.clauses) {x : String}
    (hx : x ∈ c.body.occurrences) : ∃ y ∈ a.names, ∃ k ≤ c.indexing.get y, x = versioned y k := by
  obtain ⟨d, -, hencodes⟩ := ClauseSystem.encodes_of_ofAutomaton hs
  obtain ⟨seg, -, hseg⟩ := hencodes.of_clause c hc
  rw [hseg.body_eq] at hx
  obtain ⟨t, ht, hx⟩ := Term.mem_occurrences_junction hx
  obtain ⟨st, hst, y, hy, hversioned⟩ := mem_occurrences_effects ht hx
  rw [← hseg.indexing_eq] at hversioned
  exact ⟨y, Automaton.mem_names_of_stmts hwf hst hy, hversioned⟩

end LoopInvariant
