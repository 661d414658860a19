import LoopInvariant.Automaton
import LoopInvariant.Proofs.Except
/-!
# Checked descriptions

What a description's checks leave of an automaton: its edges run between declared locations, its
statements mention declared variables only, and no declared name looks like a version of another.
-/

namespace LoopInvariant

namespace Automaton

def names (a : Automaton) : List String := a.decls.map (·.name)

/-- An automaton whose parts refer to each other properly. -/
structure WellFormed (a : Automaton) : Prop where
  plain : ∀ x ∈ a.names, '@' ∉ x.toList
  nodup : a.names.Nodup
  entry_lt : a.entry < a.locations.length
  error_lt : a.error < a.locations.length
  target_lt : ∀ e ∈ a.edges, e.target < a.locations.length
  declared : ∀ e ∈ a.edges, ∀ st ∈ e.stmts, ∀ x ∈ st.mentions, x ∈ a.names

/-! ## Single checks -/

theorem checkVariables_eq_ok {seen : List String} {ds : List VarDecl} :
    checkVariables seen ds = .ok () ↔
      (∀ d ∈ ds, '@' ∉ d.name.toList) ∧ (ds.map (·.name)).Nodup ∧ ∀ d ∈ ds, d.name ∉ seen := by
  induction ds generalizing seen with
  | nil => simp [checkVariables]
  | cons d rest ih =>
    rw [checkVariables]
    split
    · next hseen => simp [hseen]
    · next hseen =>
      split
      · next hat => simp [hat]
      · next hat =>
        -- a later declaration is new if it is neither this one nor one before
        rw [ih, List.map_cons, List.nodup_cons]
        grind

theorem checkLocations_eq_ok {seen locations : List String} :
    checkLocations seen locations = .ok () ↔ locations.Nodup ∧ ∀ l ∈ locations, l ∉ seen := by
  induction locations generalizing seen with
  | nil => simp [checkLocations]
  | cons l rest ih =>
    rw [checkLocations]
    split
    · next hseen => simp [hseen]
    · next hseen =>
      rw [ih, List.nodup_cons]
      grind

theorem number_eq_ok {locations : List String} {name : String} {l : Loc} :
    number locations name = .ok l ↔ locations.idxOf? name = some l := by
  rw [number]
  split
  · next hsome => simp [hsome]
  · next hnone => simp [hnone]

theorem exists_number {locations : List String} {name : String} :
    (∃ l, number locations name = .ok l) ↔ name ∈ locations := by
  simp only [number_eq_ok, ← Option.isSome_iff_exists, List.isSome_idxOf?]

theorem getElem?_of_number {locations : List String} {name : String} {l : Loc}
    (h : number locations name = .ok l) : locations[l]? = some name := by
  obtain ⟨hlt, hname, -⟩ := List.idxOf?_eq_some_iff.1 (number_eq_ok.1 h)
  rw [List.getElem?_eq_getElem hlt, hname]

theorem checkEdge_eq_ok {names locations : List String} {d : EdgeDescription} {e : Edge} :
    checkEdge names locations d = .ok e ↔ (∀ st ∈ d.stmts, ∀ x ∈ st.mentions, x ∈ names) ∧
      number locations d.source = .ok e.source ∧ number locations d.target = .ok e.target ∧
      d.stmts = e.stmts := by
  rw [checkEdge]
  split
  · next x hfind =>
    have hundeclared := List.find?_some hfind
    obtain ⟨st, hst, hx⟩ := List.mem_flatMap.1 (List.mem_of_find?_eq_some hfind)
    refine iff_of_false (by simp) fun h => ?_
    simp [h.1 st hst x hx] at hundeclared
  · next hfind =>
    have hdeclared : ∀ st ∈ d.stmts, ∀ x ∈ st.mentions, x ∈ names := by
      intro st hst x hx
      simpa using List.find?_eq_none.1 hfind x (List.mem_flatMap.2 ⟨st, hst, hx⟩)
    simp only [bind_eq_ok, pure, Except.pure, Except.ok.injEq]
    constructor
    · rintro ⟨source, hsource, target, htarget, rfl⟩
      exact ⟨hdeclared, hsource, htarget, rfl⟩
    · rintro ⟨-, hsource, htarget, hstmts⟩
      exact ⟨e.source, hsource, e.target, htarget, by rw [hstmts]⟩

/-- What it takes for a description to pass, and what becomes of its parts. -/
theorem ofDescription_eq_ok {d : Description} {a : Automaton} :
    ofDescription d = .ok a ↔ checkVariables [] d.decls = .ok () ∧
      checkLocations [] d.locations = .ok () ∧
      d.edges.mapM (checkEdge (d.decls.map (·.name)) d.locations) = .ok a.edges ∧
      number d.locations d.entry = .ok a.entry ∧ number d.locations d.error = .ok a.error ∧
      d.decls = a.decls ∧ d.locations = a.locations := by
  simp only [ofDescription, bind_eq_ok, pure, Except.pure, Except.ok.injEq]
  constructor
  · rintro ⟨⟨⟩, hvariables, ⟨⟩, hlocations, edges, hedges, entry, hentry, error, herror, rfl⟩
    exact ⟨hvariables, hlocations, hedges, hentry, herror, rfl, rfl⟩
  · rintro ⟨hvariables, hlocations, hedges, hentry, herror, hdecls, hnames⟩
    exact ⟨(), hvariables, (), hlocations, _, hedges, _, hentry, _, herror, by rw [hdecls, hnames]⟩

/-! ## What the checks establish -/

theorem wellFormed_of_ofDescription {d : Description} {a : Automaton}
    (h : ofDescription d = .ok a) : a.WellFormed := by
  obtain ⟨hvariables, -, hedges, hentry, herror, hdecls, hlocations⟩ := ofDescription_eq_ok.1 h
  obtain ⟨hplain, hnodup, -⟩ := checkVariables_eq_ok.1 hvariables
  have hlt : ∀ {name l}, number d.locations name = .ok l → l < a.locations.length := by
    intro name l hl
    obtain ⟨hlt, -⟩ := List.getElem?_eq_some_iff.1 (getElem?_of_number hl)
    exact hlocations ▸ hlt
  have hedge : ∀ e ∈ a.edges, e.target < a.locations.length ∧
      ∀ st ∈ e.stmts, ∀ x ∈ st.mentions, x ∈ a.names := by
    intro e he
    obtain ⟨described, -, hcheck⟩ := ((mem_of_mapM_eq_ok hedges).1 e).1 he
    obtain ⟨hdeclared, -, htarget, hstmts⟩ := checkEdge_eq_ok.1 hcheck
    rw [hstmts, hdecls] at hdeclared
    exact ⟨hlt htarget, hdeclared⟩
  refine ⟨?_, ?_, hlt hentry, hlt herror, fun e he => (hedge e he).1, fun e he => (hedge e he).2⟩
  · rw [names, ← hdecls]
    exact List.forall_mem_map.2 hplain
  · rw [names, ← hdecls]
    exact hnodup

theorem name_of_number {d : Description} {a : Automaton} (hlocations : d.locations = a.locations)
    {name : String} {l : Loc} (h : number d.locations name = .ok l) : a.name l = name := by
  rw [Automaton.name, ← hlocations, List.getD_eq_getElem?_getD, getElem?_of_number h,
    Option.getD_some]

/-- An automaton keeps the description it was made from. -/
theorem describe_of_ofDescription {d : Description} {a : Automaton} (h : ofDescription d = .ok a) :
    a.describe = d := by
  obtain ⟨-, -, hedges, hentry, herror, hdecls, hlocations⟩ := ofDescription_eq_ok.1 h
  have hdescribed : a.edges.map (fun e => (⟨a.name e.source, a.name e.target, e.stmts⟩ :
      EdgeDescription)) = d.edges := by
    apply map_eq_of_mapM_eq_ok ?_ hedges
    intro described e hcheck
    obtain ⟨-, hsource, htarget, hstmts⟩ := checkEdge_eq_ok.1 hcheck
    rw [name_of_number hlocations hsource, name_of_number hlocations htarget, ← hstmts]
  rw [describe, hdescribed, name_of_number hlocations hentry, name_of_number hlocations herror,
    ← hdecls, ← hlocations]

end Automaton

end LoopInvariant
