import LoopInvariant.Proofs.Components
/-!
# Loop heads cut every loop that matters

A cycle that avoids every loop head lies in a trap: a set that no edge leaves and that holds neither
the error location nor a loop head. So the loop heads cut every cycle from which an endpoint can be
reached.
-/

namespace LoopInvariant

namespace Automaton

variable {a : Automaton} {nodes heads : List Loc}

/-- A location of a set that is neither a loop head nor the error location. -/
structure Free (a : Automaton) (nodes heads : List Loc) (l : Loc) : Prop where
  mem : l ∈ nodes
  ne_error : l ≠ a.error
  not_head : l ∉ heads

structure Inner (a : Automaton) (nodes heads : List Loc) (l m : Loc) : Prop where
  target_mem : m ∈ a.targets l
  source : a.Free nodes heads l
  target : a.Free nodes heads m

theorem Inner.edge {l m : Loc} (h : a.Inner nodes heads l m) :
    Exploration.Edge (a.localTargets nodes) l m :=
  mem_localTargets.2 ⟨h.source.ne_error, h.target_mem, h.target.mem⟩

theorem leads_of_inner {l m : Loc} (h : Relation.ReflTransGen (a.Inner nodes heads) l m) :
    a.Leads nodes l m :=
  Relation.ReflTransGen.mono (fun _ _ => Inner.edge) _ _ h

/-- A set that cannot be left and holds neither the error location nor a loop head. -/
structure Trap (a : Automaton) (heads set : List Loc) : Prop where
  closed : ∀ l ∈ set, ∀ m ∈ a.targets l, m ∈ set
  error_not_mem : a.error ∉ set
  head_not_mem : ∀ l ∈ heads, l ∉ set

/-! ## One component -/

/-- The heads of the loops in one component. -/
def componentHeads (a : Automaton) (fuel : Nat) (component : List Loc) :
    Except StructureError (List Loc) :=
  if a.isCyclic component then
    match a.exits component with
    | [] => .ok []
    | [head] => do
      let nested ← a.headsWithin fuel (component.filter (· ≠ head))
      return head :: nested
    | several => .error (.multipleLoopExits (component.map a.name) (several.map a.name))
  else .ok []

theorem componentHeads_eq_ok {fuel : Nat} {component : List Loc}
    (h : a.componentHeads fuel component = .ok heads) :
    (a.isCyclic component = false ∧ heads = []) ∨
      (a.isCyclic component = true ∧ a.exits component = [] ∧ heads = []) ∨
      a.isCyclic component = true ∧ ∃ head nested, a.exits component = [head] ∧
        a.headsWithin fuel (component.filter (· ≠ head)) = .ok nested ∧ heads = head :: nested := by
  rw [componentHeads] at h
  split at h
  · next hcyclic =>
    split at h
    · next hexits =>
      cases h
      exact .inr (.inl ⟨hcyclic, hexits, rfl⟩)
    · next head hexits =>
      obtain ⟨nested, hnested, h⟩ := bind_eq_ok.1 h
      cases h
      exact .inr (.inr ⟨hcyclic, head, nested, hexits, hnested, rfl⟩)
    · cases h
  · next hcyclic =>
    cases h
    exact .inl ⟨by simpa using hcyclic, rfl⟩

theorem headsWithin_eq_ok {fuel : Nat} (h : a.headsWithin (fuel + 1) nodes = .ok heads) :
    (∀ l, l ∈ heads ↔
      ∃ component ∈ a.components nodes, ∃ hs, a.componentHeads fuel component = .ok hs ∧ l ∈ hs) ∧
      ∀ component ∈ a.components nodes, ∃ hs, a.componentHeads fuel component = .ok hs := by
  rw [headsWithin] at h
  obtain ⟨lists, hlists, h⟩ := bind_eq_ok.1 h
  cases h
  obtain ⟨hmem, hall⟩ := mem_of_mapM_eq_ok hlists
  refine ⟨fun l => ?_, hall⟩
  rw [List.mem_flatten]
  constructor
  · rintro ⟨hs, hhs, hl⟩
    obtain ⟨component, hcomponent, heq⟩ := (hmem hs).1 hhs
    exact ⟨component, hcomponent, hs, heq, hl⟩
  · rintro ⟨component, hcomponent, hs, heq, hl⟩
    exact ⟨hs, (hmem hs).2 ⟨component, hcomponent, heq⟩, hl⟩

theorem mem_component_of_exits {component : List Loc} {head : Loc}
    (h : a.exits component = [head]) : head ∈ component :=
  (List.mem_filter.1 (h ▸ List.mem_cons_self : head ∈ a.exits component)).1

theorem length_filter_ne_lt {component : List Loc} {head : Loc}
    (h : a.exits component = [head]) :
    (component.filter (· ≠ head)).length < component.length :=
  List.length_filter_lt_length_iff_exists.2 ⟨head, mem_component_of_exits h, by simp⟩

theorem componentHeads_subset {fuel : Nat} {component : List Loc}
    (ih : ∀ {nodes heads : List Loc}, a.headsWithin fuel nodes = .ok heads → heads ⊆ nodes)
    (h : a.componentHeads fuel component = .ok heads) : heads ⊆ component := by
  rcases componentHeads_eq_ok h with ⟨-, rfl⟩ | ⟨-, -, rfl⟩ | ⟨-, head, nested, hexits, hnested, rfl⟩
  · exact List.nil_subset _
  · exact List.nil_subset _
  · refine List.cons_subset.2 ⟨mem_component_of_exits hexits, fun l hl => ?_⟩
    exact (List.mem_filter.1 (ih hnested hl)).1

theorem headsWithin_subset {fuel : Nat} (h : a.headsWithin fuel nodes = .ok heads) :
    heads ⊆ nodes := by
  induction fuel generalizing nodes heads with
  | zero =>
    cases h
    exact List.nil_subset _
  | succ fuel ih =>
    intro l hl
    obtain ⟨component, hcomponent, hs, hheads, hmem⟩ := ((headsWithin_eq_ok h).1 l).1 hl
    exact component_subset hcomponent (componentHeads_subset ih hheads hmem)

theorem mem_componentHeads {fuel : Nat} {component hs : List Loc} {l : Loc}
    (h : a.headsWithin (fuel + 1) nodes = .ok heads) (hcomponent : component ∈ a.components nodes)
    (hheads : a.componentHeads fuel component = .ok hs) (hl : l ∈ heads) (hmem : l ∈ component) :
    l ∈ hs := by
  obtain ⟨other, hother, hs', hheads', hl⟩ := ((headsWithin_eq_ok h).1 l).1 hl
  have hin : l ∈ other := componentHeads_subset headsWithin_subset hheads' hl
  rw [component_eq hother hcomponent hin hmem, hheads] at hheads'
  cases hheads'
  exact hl

theorem error_not_mem_of_isCyclic {component : List Loc} (h : component ∈ a.components nodes)
    (hcyclic : a.isCyclic component = true) : a.error ∉ component := by
  intro hmem
  have honly : ∀ l ∈ component, l = a.error := fun l hl =>
    eq_of_leads_error (leads_of_mem_component h hmem hl)
  have hsingle : component = [a.error] := by
    have hnodup := nodup_component h
    match component, hmem, honly, hnodup with
    | [l], _, honly, _ => rw [honly l List.mem_cons_self]
    | l :: m :: _, _, honly, hnodup =>
      rw [honly l List.mem_cons_self, honly m (List.mem_cons_of_mem _ List.mem_cons_self)] at hnodup
      simp at hnodup
  rw [hsingle] at hcyclic
  simp [isCyclic, localTargets] at hcyclic

theorem error_not_mem_headsWithin {fuel : Nat} (h : a.headsWithin fuel nodes = .ok heads) :
    a.error ∉ heads := by
  induction fuel generalizing nodes heads with
  | zero =>
    cases h
    simp
  | succ fuel ih =>
    intro hmem
    obtain ⟨component, hcomponent, hs, hheads, hmem⟩ := ((headsWithin_eq_ok h).1 _).1 hmem
    rcases componentHeads_eq_ok hheads with ⟨-, rfl⟩ | ⟨-, -, rfl⟩ |
      ⟨hcyclic, head, nested, hexits, hnested, rfl⟩
    · cases hmem
    · cases hmem
    · rcases List.mem_cons.1 hmem with rfl | hmem
      · exact error_not_mem_of_isCyclic hcomponent hcyclic (mem_component_of_exits hexits)
      · exact ih hnested hmem

/-! ## Cycles -/

/-- Every edge of a path lies between what its start leads to and what leads to its end. -/
theorem transGen_between {α : Type} {r : α → α → Prop} {x y : α} (h : Relation.TransGen r x y) :
    Relation.TransGen
      (fun u v => r u v ∧ Relation.ReflTransGen r x u ∧ Relation.ReflTransGen r v y) x y := by
  induction h with
  | single h => exact .single ⟨h, .refl, .refl⟩
  | tail hxb hbc ih =>
    refine .tail (Relation.TransGen.mono ?_ _ _ ih) ⟨hbc, hxb.to_reflTransGen, .refl⟩
    rintro u v ⟨huv, hxu, hvb⟩
    exact ⟨huv, hxu, hvb.tail hbc⟩

theorem isCyclic_of_cycle {component : List Loc} {l : Loc} (hne : l ≠ a.error)
    (hl : l ∈ component) (hnext : ∃ m ∈ a.targets l, m ∈ component) :
    a.isCyclic component = true := by
  obtain ⟨m, hm, hmem⟩ := hnext
  match component with
  | [k] =>
    rw [List.mem_singleton] at hl hmem
    subst hl hmem
    exact List.contains_iff_mem.2 (mem_localTargets.2 ⟨hne, hm, List.mem_singleton.2 rfl⟩)
  | _ :: _ :: _ => rfl

/-- A cycle that avoids all heads lies in a trap. Either its component has no exit and is the trap
itself, or the cycle also avoids the component's head and lies in what is left. -/
theorem exists_trap {fuel : Nat} (h : a.headsWithin fuel nodes = .ok heads)
    (hfuel : nodes.length < fuel) {l : Loc} (hcycle : Relation.TransGen (a.Inner nodes heads) l l) :
    ∃ set ⊆ nodes, l ∈ set ∧ a.Trap heads set := by
  induction fuel generalizing nodes heads with
  | zero => omega
  | succ fuel ih =>
    obtain ⟨m, hedge, hback⟩ := Relation.TransGen.head'_iff.1 hcycle
    obtain ⟨component, hcomponent, hclass⟩ := exists_component (a := a) hedge.source.mem
    have hl : l ∈ component := hclass l .refl .refl
    have hm : m ∈ component := hclass m (.single hedge.edge) (leads_of_inner hback)
    have hcyclic := isCyclic_of_cycle hedge.source.ne_error hl ⟨m, hedge.target_mem, hm⟩
    obtain ⟨hmem, hall⟩ := headsWithin_eq_ok h
    obtain ⟨hs, hheads⟩ := hall component hcomponent
    have hfound : ∀ k ∈ heads, k ∈ component → k ∈ hs := fun k =>
      mem_componentHeads h hcomponent hheads
    rcases componentHeads_eq_ok hheads with ⟨hacyclic, -⟩ | ⟨-, hexits, rfl⟩ |
      ⟨-, head, nested, hexits, hnested, rfl⟩
    · rw [hacyclic] at hcyclic
      cases hcyclic
    · refine ⟨component, component_subset hcomponent, hl, fun k hk t ht => ?_,
        error_not_mem_of_isCyclic hcomponent hcyclic, fun k hk hin => ?_⟩
      · have hnone := List.filter_eq_nil_iff.1 hexits k hk
        simpa using fun hout => hnone (List.any_eq_true.2 ⟨t, ht, decide_eq_true hout⟩)
      · cases hfound k hk hin
    · have hkept : ∀ k, a.Leads nodes l k → a.Leads nodes k l → a.Free nodes heads k →
          a.Free (component.filter (· ≠ head)) nested k := by
        intro k hlk hkl hk
        have hout : k ∉ head :: nested := fun hin =>
          hk.not_head ((hmem k).2 ⟨component, hcomponent, _, hheads, hin⟩)
        rw [List.mem_cons, not_or] at hout
        exact ⟨List.mem_filter.2 ⟨hclass k hlk hkl, decide_eq_true hout.1⟩, hk.ne_error, hout.2⟩
      have hcycle' : Relation.TransGen (a.Inner (component.filter (· ≠ head)) nested) l l := by
        refine Relation.TransGen.mono ?_ _ _ (transGen_between hcycle)
        rintro u v ⟨huv, hlu, hvl⟩
        exact ⟨huv.target_mem,
          hkept u (leads_of_inner hlu) (leads_of_inner (.head huv hvl)) huv.source,
          hkept v (leads_of_inner (hlu.tail huv)) (leads_of_inner hvl) huv.target⟩
      have hshorter := length_filter_ne_lt hexits
      have hlength := length_component_le hcomponent
      obtain ⟨set, hset, hin, htrap⟩ := ih hnested (by omega) hcycle'
      refine ⟨set, fun k hk => component_subset hcomponent (List.mem_filter.1 (hset hk)).1, hin,
        htrap.closed, htrap.error_not_mem, fun k hk hin => ?_⟩
      obtain ⟨hmem, hne⟩ := List.mem_filter.1 (hset hin)
      rcases List.mem_cons.1 (hfound k hk hmem) with rfl | hk
      · simp at hne
      · exact htrap.head_not_mem k hk hin

end Automaton

end LoopInvariant
