import LoopInvariant.Proofs.LoopHead
/-!
# Loop heads of a closed part

A part of a set of locations that no edge leaves has the same components as the set, as far as they
lie in it, and so it has the same loop heads. The order in which the locations are listed does not
matter for that. Outside the part a loop may add heads or several exits, but not one that is never
left.
-/

namespace LoopInvariant.Automaton

variable {a : Automaton} {nodes part component other heads : List Loc} {l m : Loc}

/-- A part of a set that no edge leaves, apart from those of the error location. -/
structure ClosedIn (a : Automaton) (nodes part : List Loc) : Prop where
  subset : part ⊆ nodes
  closed : ∀ l ∈ part, ∀ m ∈ a.localTargets nodes l, m ∈ part

theorem closedIn_of_mem_iff (h : ∀ l, l ∈ part ↔ l ∈ nodes) : a.ClosedIn nodes part where
  subset l hl := (h l).1 hl
  closed _ _ m hm := (h m).2 (localTargets_subset _ hm)

/-! ## Components -/

theorem ClosedIn.leads_iff (h : a.ClosedIn nodes part) (hl : l ∈ part) :
    a.Leads part l m ↔ a.Leads nodes l m := by
  constructor
  · refine Relation.ReflTransGen.mono (fun k k' hedge => ?_) l m
    obtain ⟨hne, htarget, hmem⟩ := mem_localTargets.1 hedge
    exact mem_localTargets.2 ⟨hne, htarget, h.subset hmem⟩
  · intro hleads
    induction hleads with
    | refl => exact .refl
    | tail _ hedge ih =>
      have hmem := h.closed _ (Exploration.mem_of_leads localTargets_subset hl ih) _ hedge
      obtain ⟨hne, htarget, -⟩ := mem_localTargets.1 hedge
      exact ih.tail (mem_localTargets.2 ⟨hne, htarget, hmem⟩)

theorem ClosedIn.mem_of_leads (h : a.ClosedIn nodes part) (hl : l ∈ part)
    (hleads : a.Leads nodes l m) : m ∈ part :=
  Exploration.mem_of_leads localTargets_subset hl ((h.leads_iff hl).2 hleads)

theorem ClosedIn.perm_component (h : a.ClosedIn nodes part) (hc : component ∈ a.components part)
    (ho : other ∈ a.components nodes) (hl : l ∈ component) (hl' : l ∈ other) :
    component.Perm other := by
  have hpart := component_subset hc hl
  refine (List.perm_ext_iff_of_nodup (nodup_component hc) (nodup_component ho)).2 fun m => ?_
  rw [(isClass_component hc).mem_iff l hl m, (isClass_component ho).mem_iff l hl' m]
  constructor
  · rintro ⟨hlm, hml⟩
    have hm : m ∈ part := Exploration.mem_of_leads localTargets_subset hpart hlm
    exact ⟨(h.leads_iff hpart).1 hlm, (h.leads_iff hm).1 hml⟩
  · rintro ⟨hlm, hml⟩
    exact ⟨(h.leads_iff hpart).2 hlm, (h.leads_iff (h.mem_of_leads hpart hlm)).2 hml⟩

theorem isCyclic_perm (h : component.Perm other) : a.isCyclic component = a.isCyclic other := by
  cases component with
  | nil => rw [h.nil_eq]
  | cons l ls =>
    cases ls with
    | nil => rw [h.singleton_eq]
    | cons m ls =>
      have hlength := h.length_eq
      cases other with
      | nil => cases hlength
      | cons l' ls' =>
        cases ls' with
        | nil => cases hlength
        | cons m' ls' => rfl

theorem exits_perm (h : component.Perm other) : (a.exits component).Perm (a.exits other) := by
  have hsame : (fun l => (a.targets l).any (· ∉ component)) =
      fun l => (a.targets l).any (· ∉ other) := by
    funext l
    simp only [h.mem_iff]
  rw [exits, exits, hsame]
  exact h.filter _

/-! ## Heads -/

theorem componentHeads_of_isCyclic {fuel : Nat} (h : a.isCyclic component = false) :
    a.componentHeads fuel component = .ok [] := by
  rw [componentHeads, if_neg (by simp [h])]

theorem componentHeads_of_exits_nil {fuel : Nat} (h : a.exits component = []) :
    a.componentHeads fuel component = .ok [] := by
  rw [componentHeads, h]
  split <;> rfl

theorem componentHeads_of_exits {fuel : Nat} {head : Loc} {nested : List Loc}
    (hcyclic : a.isCyclic component = true) (h : a.exits component = [head])
    (hnested : a.headsWithin fuel (component.filter (· ≠ head)) = .ok nested) :
    a.componentHeads fuel component = .ok (head :: nested) := by
  rw [componentHeads, if_pos hcyclic, h]
  exact bind_eq_ok.2 ⟨nested, hnested, rfl⟩

theorem exists_headsWithin {fuel : Nat}
    (h : ∀ component ∈ a.components nodes, ∃ hs, a.componentHeads fuel component = .ok hs) :
    ∃ heads, a.headsWithin (fuel + 1) nodes = .ok heads := by
  obtain ⟨lists, hlists⟩ := exists_mapM_eq_ok.2 h
  exact ⟨lists.flatten, bind_eq_ok.2 ⟨lists, hlists, rfl⟩⟩

/-- The heads of a closed part are the heads that lie in it, for two amounts of fuel. -/
def Restricts (a : Automaton) (fuel fuel' : Nat) : Prop :=
  ∀ nodes part heads : List Loc, a.ClosedIn nodes part → nodes.length ≤ fuel →
    part.length ≤ fuel' → a.headsWithin fuel nodes = .ok heads →
    ∃ heads', a.headsWithin fuel' part = .ok heads' ∧ ∀ l, l ∈ heads' ↔ l ∈ heads ∧ l ∈ part

theorem Restricts.componentHeads {fuel fuel' : Nat} (h : a.Restricts fuel fuel')
    (hperm : component.Perm other) (hfuel : other.length ≤ fuel + 1)
    (hfuel' : component.length ≤ fuel' + 1) {hs : List Loc}
    (hheads : a.componentHeads fuel other = .ok hs) :
    ∃ hs', a.componentHeads fuel' component = .ok hs' ∧ ∀ l, l ∈ hs' ↔ l ∈ hs := by
  have hexits := exits_perm (a := a) hperm
  rcases componentHeads_eq_ok hheads with ⟨hacyclic, rfl⟩ | ⟨-, hnone, rfl⟩ |
    ⟨hcyclic, head, nested, hhead, hnested, rfl⟩
  · rw [← isCyclic_perm hperm] at hacyclic
    exact ⟨[], componentHeads_of_isCyclic hacyclic, fun l => Iff.rfl⟩
  · rw [hnone] at hexits
    exact ⟨[], componentHeads_of_exits_nil hexits.eq_nil, fun l => Iff.rfl⟩
  · rw [hhead] at hexits
    rw [← isCyclic_perm hperm] at hcyclic
    have hmem : ∀ l, l ∈ component.filter (· ≠ head) ↔ l ∈ other.filter (· ≠ head) := by
      intro l
      rw [List.mem_filter, List.mem_filter, hperm.mem_iff]
    have hother := length_filter_ne_lt hhead
    have hcomponent := length_filter_ne_lt hexits.eq_singleton
    obtain ⟨nested', hnested', hsame⟩ :=
      h _ _ _ (closedIn_of_mem_iff hmem) (by omega) (by omega) hnested
    refine ⟨head :: nested', componentHeads_of_exits hcyclic hexits.eq_singleton hnested',
      fun l => ?_⟩
    rw [List.mem_cons, List.mem_cons, hsame, and_iff_left_of_imp]
    exact fun hl => (hmem l).2 (headsWithin_subset hnested hl)

/-- By induction on the depth of nesting. What is left of a component without its head has the same
members in both, if not in the same order. -/
theorem restricts (a : Automaton) (fuel fuel' : Nat) : a.Restricts fuel fuel' := by
  induction fuel' generalizing fuel with
  | zero =>
    intro nodes part heads _ _ hpart _
    have hnil : part = [] := List.length_eq_zero_iff.1 (Nat.le_zero.1 hpart)
    subst hnil
    exact ⟨[], rfl, by simp⟩
  | succ fuel' ih =>
    intro nodes part heads h hnodes hpart hheads
    cases fuel with
    | zero =>
      have hnil : nodes = [] := List.length_eq_zero_iff.1 (Nat.le_zero.1 hnodes)
      subst hnil
      cases hheads
      rw [List.subset_nil.1 h.subset]
      exact ⟨[], rfl, by simp⟩
    | succ fuel =>
      obtain ⟨hmem, hall⟩ := headsWithin_eq_ok hheads
      have hsame : ∀ component ∈ a.components part, ∀ other ∈ a.components nodes,
          component.Perm other → ∀ hs, a.componentHeads fuel other = .ok hs →
          ∃ hs', a.componentHeads fuel' component = .ok hs' ∧ ∀ l, l ∈ hs' ↔ l ∈ hs := by
        intro component hc other ho hperm hs hhs
        exact (ih fuel).componentHeads hperm (Nat.le_trans (length_component_le ho) hnodes)
          (Nat.le_trans (length_component_le hc) hpart) hhs
      have hfound : ∀ component ∈ a.components part,
          ∃ other ∈ a.components nodes, component.Perm other := by
        intro component hc
        obtain ⟨l, hl⟩ := List.exists_mem_of_ne_nil _ (isClass_component hc).ne_nil
        obtain ⟨other, ho, hl'⟩ := mem_components_iff.2 (h.subset (component_subset hc hl))
        exact ⟨other, ho, h.perm_component hc ho hl hl'⟩
      obtain ⟨heads', hheads'⟩ : ∃ heads', a.headsWithin (fuel' + 1) part = .ok heads' := by
        refine exists_headsWithin fun component hc => ?_
        obtain ⟨other, ho, hperm⟩ := hfound component hc
        obtain ⟨hs, hhs⟩ := hall other ho
        obtain ⟨hs', hhs', -⟩ := hsame component hc other ho hperm hs hhs
        exact ⟨hs', hhs'⟩
      obtain ⟨hmem', -⟩ := headsWithin_eq_ok hheads'
      refine ⟨heads', hheads', fun l => ⟨fun hl => ⟨?_, headsWithin_subset hheads' hl⟩, ?_⟩⟩
      · obtain ⟨component, hc, hs', hhs', hl⟩ := (hmem' l).1 hl
        obtain ⟨other, ho, hperm⟩ := hfound component hc
        obtain ⟨hs, hhs⟩ := hall other ho
        obtain ⟨hs'', hhs'', hiff⟩ := hsame component hc other ho hperm hs hhs
        cases hhs'.symm.trans hhs''
        exact (hmem l).2 ⟨other, ho, hs, hhs, (hiff l).1 hl⟩
      · rintro ⟨hl, hpart⟩
        obtain ⟨other, ho, hs, hhs, hl⟩ := (hmem l).1 hl
        have hl' : l ∈ other := componentHeads_subset headsWithin_subset hhs hl
        obtain ⟨component, hc, hlc⟩ := mem_components_iff.2 hpart
        have hperm := h.perm_component hc ho hlc hl'
        obtain ⟨hs', hhs', hiff⟩ := hsame component hc other ho hperm hs hhs
        exact (hmem' l).2 ⟨component, hc, hs', hhs', (hiff l).2 hl⟩

/-! ## Loops outside -/

/-- Every loop outside a part is never left. -/
def Trapping (a : Automaton) (nodes part : List Loc) : Prop :=
  ∀ l ∈ nodes, l ∉ part → Relation.TransGen (a.Spans nodes) l l →
    ∀ m, Relation.ReflTransGen (a.Spans nodes) l m → Relation.ReflTransGen (a.Spans nodes) m l

theorem isCyclic_iff (h : component ∈ a.components nodes) (hl : l ∈ component) :
    a.isCyclic component = true ↔ Relation.TransGen (a.Spans nodes) l l := by
  have hnodes := component_subset h
  constructor
  · intro hcyclic
    by_cases hother : ∃ m ∈ component, m ≠ l
    · obtain ⟨m, hm, hne⟩ := hother
      have hlm := (leads_iff (hnodes hl)).1 (leads_of_mem_component h hl hm)
      have hml := (leads_iff (hnodes hm)).1 (leads_of_mem_component h hm hl)
      obtain ⟨k, hspans, hkm⟩ := hlm.cases_head.resolve_left fun heq => hne heq.symm
      exact Relation.TransGen.head' hspans (hkm.trans hml)
    · push Not at hother
      have hsingle : component = [l] := by
        have hnodup := nodup_component h
        cases component with
        | nil => cases hl
        | cons k ks =>
          cases ks with
          | nil => rw [hother k List.mem_cons_self]
          | cons k' ks =>
            rw [hother k List.mem_cons_self, hother k' (by simp)] at hnodup
            simp at hnodup
      rw [hsingle] at hcyclic
      obtain ⟨hne, htarget, -⟩ := mem_localTargets.1 (List.contains_iff_mem.1 hcyclic)
      have hself : l ∈ a.localTargets nodes l := mem_localTargets.2 ⟨hne, htarget, hnodes hl⟩
      exact .single (spans_iff.2 ⟨hnodes hl, hself⟩)
  · intro hcycle
    obtain ⟨m, hspans, hml⟩ := Relation.TransGen.head'_iff.1 hcycle
    have hedge := (spans_iff.1 hspans).2
    obtain ⟨hne, htarget, hm⟩ := mem_localTargets.1 hedge
    have hin : m ∈ component := ((isClass_component h).mem_iff l hl m).2
      ⟨.single hedge, (leads_iff hm).2 hml⟩
    exact isCyclic_of_cycle hne hl ⟨m, htarget, hin⟩

theorem exits_eq_nil_iff :
    a.exits component = [] ↔ ∀ l ∈ component, ∀ m ∈ a.targets l, m ∈ component := by
  simp [exits, List.filter_eq_nil_iff]

theorem Trapping.exits_eq_nil (htrap : a.Trapping nodes part)
    (hclosed : ∀ l ∈ nodes, ∀ m ∈ a.targets l, m ∈ nodes) (h : component ∈ a.components nodes)
    (hcyclic : a.isCyclic component = true) (hl : l ∈ component) (hout : l ∉ part) :
    a.exits component = [] := by
  refine exits_eq_nil_iff.2 fun k hk m hm => ?_
  have hnodes := component_subset h
  have hne : k ≠ a.error := fun heq => error_not_mem_of_isCyclic h hcyclic (heq ▸ hk)
  have hmem := hclosed k (hnodes hk) m hm
  have hedge : m ∈ a.localTargets nodes k := mem_localTargets.2 ⟨hne, hm, hmem⟩
  have hlm : a.Leads nodes l m := (leads_of_mem_component h hl hk).tail hedge
  have hml := htrap l (hnodes hl) hout ((isCyclic_iff h hl).1 hcyclic) m
    ((leads_iff (hnodes hl)).1 hlm)
  exact ((isClass_component h).mem_iff l hl m).2 ⟨hlm, (leads_iff hmem).2 hml⟩

/-- All heads lie in a closed part exactly if the loops outside are never left. -/
theorem ClosedIn.heads_subset_iff (hpart : a.ClosedIn nodes part)
    (hclosed : ∀ l ∈ nodes, ∀ m ∈ a.targets l, m ∈ nodes) {fuel : Nat}
    (h : a.headsWithin (fuel + 1) nodes = .ok heads) :
    heads ⊆ part ↔ a.Trapping nodes part := by
  obtain ⟨hmem, hall⟩ := headsWithin_eq_ok h
  constructor
  · intro hheads l hl hout hcycle m hlm
    obtain ⟨component, hc, hlc⟩ := mem_components_iff.2 hl
    have hcyclic := (isCyclic_iff hc hlc).2 hcycle
    obtain ⟨hs, hhs⟩ := hall component hc
    rcases componentHeads_eq_ok hhs with ⟨hacyclic, -⟩ | ⟨-, hnone, -⟩ |
      ⟨-, head, nested, hexits, -, rfl⟩
    · rw [hcyclic] at hacyclic
      cases hacyclic
    · have hm : m ∈ component := by
        induction hlm with
        | refl => exact hlc
        | tail _ hspans ih =>
          have hedge := (mem_localTargets.1 (spans_iff.1 hspans).2).2.1
          exact exits_eq_nil_iff.1 hnone _ ih _ hedge
      exact (Automaton.leads_iff (component_subset hc hm)).1 (leads_of_mem_component hc hm hlc)
    · have hhead : head ∈ part := hheads ((hmem head).2 ⟨component, hc, _, hhs, List.mem_cons_self⟩)
      have hleads := leads_of_mem_component hc (mem_component_of_exits hexits) hlc
      exact absurd (hpart.mem_of_leads hhead hleads) hout
  · intro htrap l hl
    obtain ⟨component, hc, hs, hhs, hls⟩ := (hmem l).1 hl
    by_contra hout
    have hlc : l ∈ component := componentHeads_subset headsWithin_subset hhs hls
    rcases componentHeads_eq_ok hhs with ⟨-, rfl⟩ | ⟨-, -, rfl⟩ | ⟨hcyclic, head, _, hexits, -, -⟩
    · cases hls
    · cases hls
    · rw [htrap.exits_eq_nil hclosed hc hcyclic hlc hout] at hexits
      cases hexits

/-- Loops that are never left do no harm. -/
theorem ClosedIn.exists_headsWithin (hpart : a.ClosedIn nodes part)
    (hclosed : ∀ l ∈ nodes, ∀ m ∈ a.targets l, m ∈ nodes) (htrap : a.Trapping nodes part)
    {fuel fuel' : Nat} (hfuel : nodes.length ≤ fuel + 1) (hfuel' : part.length ≤ fuel' + 1)
    (h : a.headsWithin (fuel' + 1) part = .ok heads) :
    ∃ heads', a.headsWithin (fuel + 1) nodes = .ok heads' := by
  refine Automaton.exists_headsWithin fun other ho => ?_
  obtain ⟨l, hl⟩ := List.exists_mem_of_ne_nil _ (isClass_component ho).ne_nil
  by_cases hin : l ∈ part
  · obtain ⟨component, hc, hlc⟩ := mem_components_iff.2 hin
    obtain ⟨hs, hhs⟩ := (headsWithin_eq_ok h).2 component hc
    have hperm := (hpart.perm_component hc ho hlc hl).symm
    obtain ⟨hs', hhs', -⟩ := (restricts a fuel' fuel).componentHeads hperm
      (Nat.le_trans (length_component_le hc) hfuel') (Nat.le_trans (length_component_le ho) hfuel)
      hhs
    exact ⟨hs', hhs'⟩
  · cases hcyclic : a.isCyclic other with
    | false => exact ⟨[], componentHeads_of_isCyclic hcyclic⟩
    | true =>
      exact ⟨[], componentHeads_of_exits_nil (htrap.exits_eq_nil hclosed ho hcyclic hl hin)⟩

end LoopInvariant.Automaton
