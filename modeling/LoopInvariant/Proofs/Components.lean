import LoopInvariant.Proofs.Reachability
import Mathlib.Data.List.Lattice
import Mathlib.Data.List.Pairwise
/-!
# The components that a search finds

A search that leaves nothing waiting has parted the locations into the classes of those that lead to
each other. `Sound` is what is true of a search at any time, `Follows` while the edges of a location
are followed and `Explores` once it is explored: what is left waiting then leads back to something
that waited before, and the low point tells how far back an edge goes. If no edge goes back, what
waits since the discovery of the location is its class. The fuel never runs out, because a location
is explored once.
-/

namespace LoopInvariant

namespace Exploration

def Edge (next : Loc → List Loc) (l m : Loc) : Prop := m ∈ next l

abbrev Leads (next : Loc → List Loc) : Loc → Loc → Prop := Relation.ReflTransGen (Edge next)

variable {next : Loc → List Loc} {x y z : Exploration} {l m : Loc} {done : List Loc} {low : Nat}

/-! ## At any time -/

/-- All locations that lead to each other with any one of them. -/
structure IsClass (next : Loc → List Loc) (component : List Loc) : Prop where
  ne_nil : component ≠ []
  nodup : component.Nodup
  mem_iff : ∀ l ∈ component, ∀ m, m ∈ component ↔ Leads next l m ∧ Leads next m l

/-- What is true of a search at any time. Nothing leads out of the components that are closed, and
no edge goes from an earlier one to a later one. -/
structure Sound (next : Loc → List Loc) (x : Exploration) : Prop where
  nodup : x.discovered.Nodup
  nodup_waiting : x.waiting.Nodup
  mem_discovered : ∀ l, l ∈ x.discovered ↔ l ∈ x.waiting ∨ l ∈ x.components.flatten
  apart : ∀ l ∈ x.waiting, l ∉ x.components.flatten
  closed : ∀ l ∈ x.components.flatten, ∀ m ∈ next l, m ∈ x.components.flatten
  classes : ∀ component ∈ x.components, IsClass next component
  disjoint : x.components.Pairwise List.Disjoint
  ordered : x.components.Pairwise fun c d => ∀ l ∈ c, ∀ m ∈ d, m ∉ next l

theorem sound_empty (next : Loc → List Loc) : Sound next empty := by
  constructor <;> simp [empty]

theorem Sound.enter (h : Sound next x) (hl : l ∉ x.discovered) : Sound next (x.enter l) where
  nodup := h.nodup.append (List.nodup_singleton l) (by simpa using hl)
  nodup_waiting :=
    List.nodup_cons.2 ⟨fun hw => hl ((h.mem_discovered l).2 (.inl hw)), h.nodup_waiting⟩
  mem_discovered := by
    intro m
    simp only [Exploration.enter, List.mem_append, List.mem_cons, List.not_mem_nil, or_false,
      h.mem_discovered m]
    tauto
  apart := by
    intro m hm
    rcases List.mem_cons.1 hm with rfl | hm
    · exact fun hc => hl ((h.mem_discovered m).2 (.inr hc))
    · exact h.apart m hm
  closed := h.closed
  classes := h.classes
  disjoint := h.disjoint
  ordered := h.ordered

theorem Sound.of_leads (h : Sound next x) (hl : l ∈ x.components.flatten) (hlm : Leads next l m) :
    m ∈ x.components.flatten := by
  induction hlm with
  | refl => exact hl
  | tail _ hedge ih => exact h.closed _ ih _ hedge

/-- A class can be closed if edges leave it for earlier components only. -/
theorem Sound.add (h : Sound next x) {component rest : List Loc}
    (hwaiting : x.waiting.Perm (component ++ rest)) (hclass : IsClass next component)
    (hclosed : ∀ m ∈ component, ∀ k ∈ next m, k ∈ component ∨ k ∈ x.components.flatten) :
    Sound next ⟨x.discovered, rest, x.components ++ [component]⟩ := by
  have hnodup := hwaiting.nodup_iff.1 h.nodup_waiting
  have hmem : ∀ m, m ∈ x.waiting ↔ m ∈ component ∨ m ∈ rest := by
    intro m
    rw [hwaiting.mem_iff, List.mem_append]
  have hflatten : ∀ m, m ∈ (x.components ++ [component]).flatten ↔
      m ∈ component ∨ m ∈ x.components.flatten := by
    intro m
    rw [List.flatten_append, List.mem_append, List.flatten_singleton, or_comm]
  have hnew : ∀ m ∈ component, m ∉ x.components.flatten := by
    intro m hm
    exact h.apart m ((hmem m).2 (.inl hm))
  have hold : ∀ c ∈ x.components, ∀ m ∈ c, m ∈ x.components.flatten := by
    intro c hc m hm
    exact List.mem_flatten.2 ⟨c, hc, hm⟩
  refine ⟨h.nodup, (List.nodup_append.1 hnodup).2.1, fun m => ?_, fun m hm hin => ?_,
    fun m hm k hk => ?_, ?_, ?_, ?_⟩
  · rw [hflatten, h.mem_discovered, hmem]
    tauto
  · rcases (hflatten m).1 hin with hin | hin
    · exact List.disjoint_of_nodup_append hnodup hin hm
    · exact h.apart m ((hmem m).2 (.inr hm)) hin
  · rcases (hflatten m).1 hm with hm | hm
    · exact (hflatten k).2 (hclosed m hm k hk)
    · exact (hflatten k).2 (.inr (h.closed m hm k hk))
  · exact List.forall_mem_append.2 ⟨h.classes, List.forall_mem_singleton.2 hclass⟩
  · refine List.pairwise_append.2 ⟨h.disjoint, List.pairwise_singleton _ _, fun c hc d hd => ?_⟩
    rw [List.mem_singleton.1 hd]
    exact fun m hm hm' => hnew m hm' (hold c hc m hm)
  · refine List.pairwise_append.2 ⟨h.ordered, List.pairwise_singleton _ _, fun c hc d hd => ?_⟩
    rw [List.mem_singleton.1 hd]
    exact fun k hk m hm hedge => hnew m hm (h.closed k (hold c hc k hk) m hedge)

/-- What waits down to a location makes its component. -/
theorem close_eq {left rest : List Loc} (hwaiting : x.waiting = left ++ l :: rest) (hl : l ∉ left) :
    x.close l = ⟨x.discovered, rest, x.components ++ [l :: left.reverse]⟩ := by
  have hne : ∀ m ∈ left, decide (m ≠ l) = true := by
    intro m hm
    exact decide_eq_true fun heq => hl (heq ▸ hm)
  rw [close, hwaiting, List.takeWhile_append_of_pos hne, List.dropWhile_append_of_pos hne]
  simp

/-! ## Positions -/

theorem idxOf_eq_idxOf {ls ms : List Loc} (h : ls <+: ms) (hl : l ∈ ls) :
    ms.idxOf l = ls.idxOf l := by
  obtain ⟨rest, rfl⟩ := h
  exact List.idxOf_append_of_mem hl

theorem mem_of_idxOf_lt {ls ms : List Loc} (h : ls <+: ms) (hl : ms.idxOf l < ls.length) :
    l ∈ ls := by
  obtain ⟨rest, rfl⟩ := h
  by_contra hnot
  rw [List.idxOf_append_of_notMem hnot] at hl
  omega

/-! ## While a location is explored -/

/-- What has become of a search since the discovery of a location. What is new is reached from the
location, and a low point before its discovery is that of a location that waits. -/
structure Advances (next : Loc → List Loc) (x : Exploration) (l : Loc) (y : Exploration) (low : Nat) :
    Prop where
  sound : Sound next y
  discovered : x.discovered ++ [l] <+: y.discovered
  finished : x.components.flatten ⊆ y.components.flatten
  reached : ∀ m ∈ y.discovered, m ∉ x.discovered → Leads next l m
  low_le : low ≤ x.discovered.length
  low_eq : low < x.discovered.length →
    ∃ p ∈ x.waiting, x.discovered.idxOf p = low ∧ Leads next l p

namespace Advances

theorem kept (h : Advances next x l y low) : x.discovered <+: y.discovered :=
  (List.prefix_append _ _).trans h.discovered

theorem mem (h : Advances next x l y low) : l ∈ y.discovered :=
  h.discovered.subset (List.mem_append_right _ (List.mem_singleton.2 rfl))

theorem length_lt (h : Advances next x l y low) : x.discovered.length < y.discovered.length := by
  have hlength := h.discovered.length_le
  rw [List.length_append, List.length_singleton] at hlength
  omega

theorem mem_waiting (h : Advances next x l y low) (hx : Sound next x) (hm : m ∈ y.waiting)
    (hmx : m ∈ x.discovered) : m ∈ x.waiting := by
  rcases (hx.mem_discovered m).1 hmx with hmx | hmx
  · exact hmx
  · exact absurd (h.finished hmx) (h.sound.apart m hm)

end Advances

/-- Locations that were discovered later and wait for some of `bases`. No edge from them goes back
further than the low point. -/
def Hangs (next : Loc → List Loc) (x : Exploration) (bases left : List Loc) (low : Nat) : Prop :=
  ∀ m ∈ left, (∃ p ∈ bases, Leads next m p) ∧
    ∀ k ∈ next m, k ∈ x.waiting → low ≤ x.discovered.idxOf k

/-- The search while the edges of a location are followed, some of which are done. -/
structure Follows (next : Loc → List Loc) (x : Exploration) (l : Loc) (done : List Loc)
    (y : Exploration) (low : Nat) : Prop extends Advances next x l y low where
  closed : ∀ m ∈ y.discovered, m ∉ x.discovered → m ≠ l → ∀ k ∈ next m, k ∈ y.discovered
  waiting : ∃ left, y.waiting = left ++ l :: x.waiting ∧ Hangs next x (l :: x.waiting) left low
  done_mem : ∀ m ∈ done, m ∈ y.discovered
  done_low : ∀ m ∈ done, m ∈ x.waiting → low ≤ x.discovered.idxOf m

/-- The search once a location is explored. -/
structure Explores (next : Loc → List Loc) (x : Exploration) (l : Loc) (y : Exploration) (low : Nat) :
    Prop extends Advances next x l y low where
  closed : ∀ m ∈ y.discovered, m ∉ x.discovered → ∀ k ∈ next m, k ∈ y.discovered
  waiting : ∃ left, y.waiting = left ++ x.waiting ∧ Hangs next x x.waiting left low

theorem follows_enter (h : Sound next x) (hl : l ∉ x.discovered) :
    Follows next x l [] (x.enter l) x.discovered.length where
  sound := h.enter hl
  discovered := List.prefix_rfl
  finished := List.Subset.refl _
  reached := by
    intro m hm hnew
    rcases List.mem_append.1 hm with hm | hm
    · exact absurd hm hnew
    · rw [List.mem_singleton.1 hm]
  low_le := Nat.le_refl _
  low_eq := fun hlt => absurd hlt (Nat.lt_irrefl _)
  closed := by
    intro m hm hnew hne
    rcases List.mem_append.1 hm with hm | hm
    · exact absurd hm hnew
    · exact absurd (List.mem_singleton.1 hm) hne
  waiting := ⟨[], rfl, by simp [Hangs]⟩
  done_mem := by simp
  done_low := by simp

theorem Hangs.mono {bases left : List Loc} {low' : Nat} (h : Hangs next x bases left low)
    (hle : low' ≤ low) : Hangs next x bases left low' := by
  intro m hm
  obtain ⟨hbase, hedges⟩ := h m hm
  exact ⟨hbase, fun k hk hkx => Nat.le_trans hle (hedges k hk hkx)⟩

theorem Follows.mem_waiting_of_mem (h : Follows next x l done y low) (hm : m ∈ x.waiting) :
    m ∈ y.waiting := by
  obtain ⟨left, hwaiting, -⟩ := h.waiting
  rw [hwaiting]
  exact List.mem_append_right _ (List.mem_cons_of_mem _ hm)

/-- Follow an edge without exploring: at most the low point is lowered. -/
theorem Follows.lower (h : Follows next x l done y low) (hm : m ∈ y.discovered) {low' : Nat}
    (hle : low' ≤ low)
    (hlow : low' < low → ∃ p ∈ x.waiting, x.discovered.idxOf p = low' ∧ Leads next l p)
    (hmlow : m ∈ x.waiting → low' ≤ x.discovered.idxOf m) :
    Follows next x l (done ++ [m]) y low' where
  sound := h.sound
  discovered := h.discovered
  finished := h.finished
  reached := h.reached
  low_le := Nat.le_trans hle h.low_le
  low_eq := by
    intro hlt
    rcases Nat.lt_or_eq_of_le hle with hless | rfl
    · exact hlow hless
    · exact h.low_eq hlt
  closed := h.closed
  waiting := by
    obtain ⟨left, hwaiting, hhangs⟩ := h.waiting
    exact ⟨left, hwaiting, hhangs.mono hle⟩
  done_mem := List.forall_mem_append.2 ⟨h.done_mem, List.forall_mem_singleton.2 hm⟩
  done_low := by
    intro k hk hkx
    rcases List.mem_append.1 hk with hk | hk
    · exact Nat.le_trans hle (h.done_low k hk hkx)
    · rw [List.mem_singleton.1 hk] at hkx ⊢
      exact hmlow hkx

theorem Follows.known (h : Follows next x l done y low) (hx : Sound next x) (hedge : m ∈ next l)
    (hm : m ∈ y.discovered) :
    Follows next x l (done ++ [m]) y
      (if m ∈ y.waiting then min low (y.discovered.idxOf m) else low) := by
  split
  · next hwaiting =>
    refine h.lower hm (Nat.min_le_left _ _) (fun hless => ?_) (fun hmx => ?_)
    · have hlow := h.low_le
      have hmx : m ∈ x.discovered := mem_of_idxOf_lt h.kept (by omega)
      refine ⟨m, h.mem_waiting hx hwaiting hmx, ?_, .single hedge⟩
      rw [← idxOf_eq_idxOf h.kept hmx]
      omega
    · have hmx : m ∈ x.discovered := (hx.mem_discovered m).2 (.inl hmx)
      rw [idxOf_eq_idxOf h.kept hmx]
      exact Nat.min_le_right _ _
  · next hwaiting =>
    refine h.lower hm (Nat.le_refl _) (fun hless => absurd hless (Nat.lt_irrefl _)) fun hmx => ?_
    exact absurd (h.mem_waiting_of_mem hmx) hwaiting

/-- Follow an edge to a location that is new and has been explored. -/
theorem Follows.explored (h : Follows next x l done y low) (hx : Sound next x)
    (hedge : m ∈ next l) (hm : m ∉ y.discovered) {low' : Nat} (hz : Explores next y m z low') :
    Follows next x l (done ++ [m]) z (min low low') where
  sound := hz.sound
  discovered := h.discovered.trans hz.kept
  finished := List.Subset.trans h.finished hz.finished
  reached := by
    intro k hk hkx
    by_cases hky : k ∈ y.discovered
    · exact h.reached k hky hkx
    · exact .head hedge (hz.reached k hk hky)
  low_le := Nat.le_trans (Nat.min_le_left _ _) h.low_le
  low_eq := by
    intro hlt
    rcases Nat.le_total low low' with hle | hle
    · rw [Nat.min_eq_left hle] at hlt ⊢
      exact h.low_eq hlt
    · rw [Nat.min_eq_right hle] at hlt ⊢
      have hlength := h.length_lt
      obtain ⟨p, hp, hindex, hmp⟩ := hz.low_eq (by omega)
      have hpx : p ∈ x.discovered := mem_of_idxOf_lt h.kept (by omega)
      refine ⟨p, h.mem_waiting hx hp hpx, ?_, .head hedge hmp⟩
      rw [← idxOf_eq_idxOf h.kept hpx, hindex]
  closed := by
    intro k hk hkx hne j hj
    by_cases hky : k ∈ y.discovered
    · exact hz.kept.subset (h.closed k hky hkx hne j hj)
    · exact hz.closed k hk hky j hj
  waiting := by
    obtain ⟨left, hwaiting, hhangs⟩ := h.waiting
    obtain ⟨more, hmore, hhangs'⟩ := hz.waiting
    refine ⟨more ++ left, by rw [hmore, hwaiting, List.append_assoc], ?_⟩
    refine List.forall_mem_append.2 ⟨fun k hk => ⟨?_, fun j hj hjx => ?_⟩,
      hhangs.mono (Nat.min_le_left _ _)⟩
    · obtain ⟨p, hp, hkp⟩ := (hhangs' k hk).1
      rw [hwaiting] at hp
      rcases List.mem_append.1 hp with hp | hp
      · obtain ⟨q, hq, hpq⟩ := (hhangs p hp).1
        exact ⟨q, hq, hkp.trans hpq⟩
      · exact ⟨p, hp, hkp⟩
    · have hlow := (hhangs' k hk).2 j hj (h.mem_waiting_of_mem hjx)
      rw [idxOf_eq_idxOf h.kept ((hx.mem_discovered j).2 (.inl hjx))] at hlow
      exact Nat.le_trans (Nat.min_le_right _ _) hlow
  done_mem := by
    intro k hk
    rcases List.mem_append.1 hk with hk | hk
    · exact hz.kept.subset (h.done_mem k hk)
    · rw [List.mem_singleton.1 hk]
      exact hz.mem
  done_low := by
    intro k hk hkx
    rcases List.mem_append.1 hk with hk | hk
    · exact Nat.le_trans (Nat.min_le_left _ _) (h.done_low k hk hkx)
    · rw [List.mem_singleton.1 hk] at hkx
      exact absurd (h.kept.subset ((hx.mem_discovered m).2 (.inl hkx))) hm

/-! ## Once all edges are followed -/

/-- The state of a search in which all edges of a location are followed, with what waits since its
discovery. -/
structure Followed (next : Loc → List Loc) (x : Exploration) (l : Loc) (left : List Loc)
    (y : Exploration) (low : Nat) : Prop extends Advances next x l y low where
  waiting : y.waiting = left ++ l :: x.waiting
  hangs : Hangs next x (l :: x.waiting) left low
  new : ∀ m ∈ l :: left.reverse, m ∉ x.discovered
  closed : ∀ m ∈ y.discovered, m ∉ x.discovered → ∀ k ∈ next m, k ∈ y.discovered
  low_edge : ∀ k ∈ next l, k ∈ x.waiting → low ≤ x.discovered.idxOf k

theorem Follows.followed (h : Follows next x l (next l) y low) (hx : Sound next x)
    (hl : l ∉ x.discovered) : ∃ left, Followed next x l left y low := by
  obtain ⟨left, hwaiting, hhangs⟩ := h.waiting
  have hnodup := h.sound.nodup_waiting
  rw [hwaiting] at hnodup
  refine ⟨left, h.toAdvances, hwaiting, hhangs, ?_, ?_, h.done_low⟩
  · refine List.forall_mem_cons.2 ⟨hl, fun m hm hmx => ?_⟩
    rw [List.mem_reverse] at hm
    have hmy : m ∈ y.waiting := hwaiting ▸ List.mem_append_left _ hm
    have hrest := List.mem_cons_of_mem l (h.mem_waiting hx hmy hmx)
    exact List.disjoint_of_nodup_append hnodup hm hrest
  · intro m hm hmx k hk
    by_cases hml : m = l
    · exact h.done_mem k (hml ▸ hk)
    · exact h.closed m hm hmx hml k hk

namespace Followed

variable {left : List Loc}

theorem perm_waiting (h : Followed next x l left y low) :
    y.waiting.Perm ((l :: left.reverse) ++ x.waiting) := by
  rw [h.waiting]
  exact List.perm_middle.trans (((List.reverse_perm left).symm.append_right x.waiting).cons l)

theorem mem_waiting (h : Followed next x l left y low) :
    m ∈ y.waiting ↔ m ∈ l :: left.reverse ∨ m ∈ x.waiting := by
  rw [h.perm_waiting.mem_iff, List.mem_append]

theorem mem_discovered (h : Followed next x l left y low) (hm : m ∈ l :: left.reverse) :
    m ∈ y.discovered :=
  (h.sound.mem_discovered m).2 (.inl (h.mem_waiting.2 (.inl hm)))

theorem leads (h : Followed next x l left y low) (hm : m ∈ l :: left.reverse) : Leads next l m :=
  h.reached m (h.mem_discovered hm) (h.new m hm)

theorem low_le_idxOf (h : Followed next x l left y low) (hm : m ∈ l :: left.reverse) {k : Loc}
    (hk : k ∈ next m) (hkx : k ∈ x.waiting) : low ≤ x.discovered.idxOf k := by
  rcases List.mem_cons.1 hm with rfl | hm
  · exact h.low_edge k hk hkx
  · exact (h.hangs m (List.mem_reverse.1 hm)).2 k hk hkx

theorem edge_closed (h : Followed next x l left y low) (hx : Sound next x)
    (hlow : low = x.discovered.length) (hm : m ∈ l :: left.reverse) {k : Loc} (hk : k ∈ next m) :
    k ∈ l :: left.reverse ∨ k ∈ y.components.flatten := by
  have hky := h.closed m (h.mem_discovered hm) (h.new m hm) k hk
  rcases (h.sound.mem_discovered k).1 hky with hky | hky
  · rcases h.mem_waiting.1 hky with hkl | hkx
    · exact .inl hkl
    · have hindex := List.idxOf_lt_length_iff.2 ((hx.mem_discovered k).2 (.inl hkx))
      have hback := h.low_le_idxOf hm hk hkx
      omega
  · exact .inr hky

theorem leads_closed (h : Followed next x l left y low) (hx : Sound next x)
    (hlow : low = x.discovered.length) (hm : m ∈ l :: left.reverse) {k : Loc}
    (hmk : Leads next m k) : k ∈ l :: left.reverse ∨ k ∈ y.components.flatten := by
  induction hmk with
  | refl => exact .inl hm
  | tail _ hedge ih =>
    rcases ih with hj | hj
    · exact h.edge_closed hx hlow hj hedge
    · exact .inr (h.sound.closed _ hj _ hedge)

/-- If no edge goes back, everything that waits since the discovery leads to the location. -/
theorem leads_back (h : Followed next x l left y low) (hx : Sound next x)
    (hlow : low = x.discovered.length) (hm : m ∈ l :: left.reverse) : Leads next m l := by
  rcases List.mem_cons.1 hm with rfl | hleft
  · exact .refl
  · obtain ⟨p, hp, hmp⟩ := (h.hangs m (List.mem_reverse.1 hleft)).1
    rcases List.mem_cons.1 hp with rfl | hp
    · exact hmp
    · rcases h.leads_closed hx hlow hm hmp with hpl | hpy
      · exact absurd ((hx.mem_discovered p).2 (.inl hp)) (h.new p hpl)
      · exact absurd hpy (h.sound.apart p (h.mem_waiting.2 (.inr hp)))

theorem isClass (h : Followed next x l left y low) (hx : Sound next x)
    (hlow : low = x.discovered.length) : IsClass next (l :: left.reverse) where
  ne_nil := List.cons_ne_nil _ _
  nodup := (List.nodup_append.1 (h.perm_waiting.nodup_iff.1 h.sound.nodup_waiting)).1
  mem_iff := by
    intro k hk m
    constructor
    · intro hm
      exact ⟨(h.leads_back hx hlow hk).trans (h.leads hm),
        (h.leads_back hx hlow hm).trans (h.leads hk)⟩
    · intro hkm
      rcases h.leads_closed hx hlow hk hkm.1 with hm | hm
      · exact hm
      · -- nothing leads out of the closed components
        have hky := h.sound.of_leads hm hkm.2
        exact absurd hky (h.sound.apart k (h.mem_waiting.2 (.inl hk)))

/-- A location that leads back no further than to itself closes its component. -/
theorem explores_close (h : Followed next x l left y low) (hx : Sound next x)
    (hlow : low = x.discovered.length) : Explores next x l (y.close l) low := by
  have hclass := h.isClass hx hlow
  have hl : l ∉ left := by
    intro hin
    exact (List.nodup_cons.1 hclass.nodup).1 (List.mem_reverse.2 hin)
  rw [close_eq h.waiting hl]
  refine ⟨⟨?_, h.discovered, ?_, h.reached, h.low_le, h.low_eq⟩, h.closed, [], rfl, ?_⟩
  · exact h.sound.add h.perm_waiting hclass fun m hm k hk => h.edge_closed hx hlow hm hk
  · intro m hm
    rw [List.flatten_append]
    exact List.mem_append_left _ (h.finished hm)
  · simp [Hangs]

theorem explores_wait (h : Followed next x l left y low) (hlow : low ≠ x.discovered.length) :
    Explores next x l y low := by
  obtain ⟨p, hp, -, hlp⟩ := h.low_eq (Nat.lt_of_le_of_ne h.low_le hlow)
  refine ⟨h.toAdvances, h.closed, left ++ [l], by simp [h.waiting], ?_⟩
  refine List.forall_mem_append.2 ⟨fun m hm => ⟨?_, (h.hangs m hm).2⟩,
    List.forall_mem_singleton.2 ⟨?_, h.low_edge⟩⟩
  · obtain ⟨q, hq, hmq⟩ := (h.hangs m hm).1
    rcases List.mem_cons.1 hq with rfl | hq
    · exact ⟨p, hp, hmq.trans hlp⟩
    · exact ⟨q, hq, hmq⟩
  · exact ⟨p, hp, hlp⟩

end Followed

/-! ## The whole search -/

variable {nodes : List Loc} {fuel : Nat}

theorem mem_of_leads (hnodes : ∀ l, next l ⊆ nodes) (hl : l ∈ nodes) (hlm : Leads next l m) :
    m ∈ nodes := by
  rcases hlm.cases_tail with rfl | ⟨k, -, hedge⟩
  · exact hl
  · exact hnodes k hedge

theorem Advances.subset (h : Advances next x l y low) (hnodes : ∀ l, next l ⊆ nodes)
    (hl : l ∈ nodes) (hx : x.discovered ⊆ nodes) : y.discovered ⊆ nodes := by
  intro m hm
  by_cases hmx : m ∈ x.discovered
  · exact hx hmx
  · exact mem_of_leads hnodes hl (h.reached m hm hmx)

section Follow

variable {explore : Exploration → Loc → Exploration × Nat} {s : Exploration × Nat}
  (hnodes : ∀ l, next l ⊆ nodes) (hx : Sound next x) (hl : l ∈ nodes) (hsub : x.discovered ⊆ nodes)
  (hexplore : ∀ y m, Sound next y → y.discovered ⊆ nodes →
    x.discovered.length < y.discovered.length → m ∉ y.discovered → m ∈ nodes →
      Explores next y m (explore y m).1 (explore y m).2)

include hnodes hx hl hsub hexplore

theorem Follows.follow (h : Follows next x l done s.1 s.2) (hm : m ∈ next l) :
    Follows next x l (done ++ [m]) (follow explore s m).1 (follow explore s m).2 := by
  rw [Exploration.follow]
  split
  · next hknown => exact h.known hx hm hknown
  · next hnew =>
    exact h.explored hx hm hnew (hexplore s.1 m h.sound (h.subset hnodes hl hsub) h.length_lt hnew
      (hnodes l hm))

theorem follows_foldl {ms : List Loc} (hms : ms ⊆ next l) (h : Follows next x l done s.1 s.2) :
    Follows next x l (done ++ ms) (ms.foldl (Exploration.follow explore) s).1
      (ms.foldl (Exploration.follow explore) s).2 := by
  induction ms generalizing done s with
  | nil => simpa using h
  | cons m ms ih =>
    obtain ⟨hm, hms⟩ := List.cons_subset.1 hms
    simpa using ih hms (h.follow hnodes hx hl hsub hexplore hm)

end Follow

/-- The fuel suffices while it exceeds the number of locations not discovered. -/
theorem explores_explore (hnodes : ∀ l, next l ⊆ nodes) (hx : Sound next x) (hl : l ∈ nodes)
    (hnew : l ∉ x.discovered) (hsub : x.discovered ⊆ nodes)
    (hfuel : nodes.length < fuel + x.discovered.length) :
    Explores next x l (explore next fuel x l).1 (explore next fuel x l).2 := by
  induction fuel generalizing x l with
  | zero =>
    have hlength := hx.nodup.length_le_of_subset hsub
    omega
  | succ fuel ih =>
    have hfollows := follows_foldl hnodes hx hl hsub
      (fun y m hy hsub' hlength hm hmem => ih hy hmem hm hsub' (by omega))
      (s := (x.enter l, x.discovered.length)) (List.Subset.refl (next l)) (follows_enter hx hnew)
    rw [List.nil_append] at hfollows
    obtain ⟨left, hfollowed⟩ := hfollows.followed hx hnew
    rw [explore]
    simp only
    split
    · next hlow => exact hfollowed.explores_close hx hlow
    · next hlow => exact hfollowed.explores_wait hlow

/-- A search between two roots: nothing waits, and all that is discovered lies in a set. -/
structure Rested (next : Loc → List Loc) (nodes : List Loc) (x : Exploration) : Prop
    extends Sound next x where
  waiting_eq : x.waiting = []
  subset : x.discovered ⊆ nodes

theorem Rested.visit (h : Rested next nodes x) (hnodes : ∀ l, next l ⊆ nodes) (hl : l ∈ nodes)
    (hfuel : nodes.length < fuel) :
    Rested next nodes (visit next fuel x l) ∧ x.discovered ⊆ (visit next fuel x l).discovered ∧
      l ∈ (visit next fuel x l).discovered := by
  rw [Exploration.visit]
  split
  · next hknown => exact ⟨h, List.Subset.refl _, hknown⟩
  · next hnew =>
    have hexplores := explores_explore hnodes h.toSound hl hnew h.subset
      (Nat.lt_of_lt_of_le hfuel (Nat.le_add_right _ _))
    refine ⟨⟨hexplores.sound, ?_, hexplores.subset hnodes hl h.subset⟩, hexplores.kept.subset,
      hexplores.mem⟩
    -- what is left waiting would hang on something that waited before
    obtain ⟨left, hwaiting, hhangs⟩ := hexplores.waiting
    rw [h.waiting_eq] at hwaiting hhangs
    cases left with
    | nil => exact hwaiting
    | cons m rest =>
      obtain ⟨p, hp, -⟩ := (hhangs m List.mem_cons_self).1
      cases hp

theorem Rested.foldl_visit (h : Rested next nodes x) (hnodes : ∀ l, next l ⊆ nodes)
    (hfuel : nodes.length < fuel) {ls : List Loc} (hls : ls ⊆ nodes) :
    Rested next nodes (ls.foldl (Exploration.visit next fuel) x) ∧
      x.discovered ⊆ (ls.foldl (Exploration.visit next fuel) x).discovered ∧
      ls ⊆ (ls.foldl (Exploration.visit next fuel) x).discovered := by
  induction ls generalizing x with
  | nil => exact ⟨h, List.Subset.refl _, List.nil_subset _⟩
  | cons l ls ih =>
    obtain ⟨hl, hls⟩ := List.cons_subset.1 hls
    obtain ⟨hrested, hkept, hmem⟩ := h.visit hnodes hl hfuel
    obtain ⟨hrested', hkept', hmem'⟩ := ih hrested hls
    exact ⟨hrested', List.Subset.trans hkept hkept', List.cons_subset.2 ⟨hkept' hmem, hmem'⟩⟩

end Exploration

namespace Automaton

variable {a : Automaton} {nodes component : List Loc} {l m : Loc}

/-- One location leads to another within a set, along edges that do not leave the error location. -/
def Leads (a : Automaton) (nodes : List Loc) (l m : Loc) : Prop :=
  Exploration.Leads (a.localTargets nodes) l m

theorem mem_localTargets :
    m ∈ a.localTargets nodes l ↔ l ≠ a.error ∧ m ∈ a.targets l ∧ m ∈ nodes := by
  rw [localTargets]
  split
  · next h => simp [h]
  · next h => simp [h]

theorem localTargets_subset (l : Loc) : a.localTargets nodes l ⊆ nodes :=
  fun _ hm => (mem_localTargets.1 hm).2.2

theorem eq_of_leads_error (h : a.Leads nodes a.error m) : m = a.error := by
  rcases h.cases_head with h | ⟨k, hedge, -⟩
  · exact h.symm
  · exact absurd rfl (mem_localTargets.1 hedge).1

def search (a : Automaton) (nodes : List Loc) : Exploration :=
  nodes.foldl (Exploration.visit (a.localTargets nodes) (nodes.length + 1)) .empty

theorem rested_empty (a : Automaton) (nodes : List Loc) :
    Exploration.Rested (a.localTargets nodes) nodes .empty :=
  ⟨Exploration.sound_empty _, rfl, List.nil_subset _⟩

theorem rested_search (a : Automaton) (nodes : List Loc) :
    Exploration.Rested (a.localTargets nodes) nodes (a.search nodes) ∧
      nodes ⊆ (a.search nodes).discovered := by
  obtain ⟨hrested, -, hall⟩ := (rested_empty a nodes).foldl_visit localTargets_subset
    (Nat.lt_succ_self _) (List.Subset.refl nodes)
  exact ⟨hrested, hall⟩

theorem sound_search (a : Automaton) (nodes : List Loc) :
    Exploration.Sound (a.localTargets nodes) (a.search nodes) :=
  (rested_search a nodes).1.toSound

theorem mem_components_iff : (∃ component ∈ a.components nodes, l ∈ component) ↔ l ∈ nodes := by
  obtain ⟨hrested, hall⟩ := rested_search a nodes
  have hdiscovered := hrested.mem_discovered l
  rw [hrested.waiting_eq, List.mem_flatten] at hdiscovered
  constructor
  · intro h
    exact hrested.subset (hdiscovered.2 (.inr h))
  · intro hl
    exact (hdiscovered.1 (hall hl)).resolve_left List.not_mem_nil

theorem isClass_component (h : component ∈ a.components nodes) :
    Exploration.IsClass (a.localTargets nodes) component :=
  (sound_search a nodes).classes component h

theorem component_subset (h : component ∈ a.components nodes) : component ⊆ nodes :=
  fun _ hl => mem_components_iff.1 ⟨component, h, hl⟩

theorem component_eq {other : List Loc} (h : component ∈ a.components nodes)
    (hother : other ∈ a.components nodes) (hl : l ∈ component) (hl' : l ∈ other) :
    component = other := by
  have : Std.Symm (@List.Disjoint Loc) := ⟨fun _ _ => List.Disjoint.symm⟩
  by_contra hne
  exact (sound_search a nodes).disjoint.forall h hother hne hl hl'

theorem nodup_component (h : component ∈ a.components nodes) : component.Nodup :=
  (isClass_component h).nodup

theorem length_component_le (h : component ∈ a.components nodes) :
    component.length ≤ nodes.length :=
  (nodup_component h).length_le_of_subset (component_subset h)

theorem leads_of_mem_component (h : component ∈ a.components nodes) (hl : l ∈ component)
    (hm : m ∈ component) : a.Leads nodes l m :=
  (((isClass_component h).mem_iff l hl m).1 hm).1

theorem exists_component (hl : l ∈ nodes) :
    ∃ component ∈ a.components nodes,
      ∀ m, a.Leads nodes l m → a.Leads nodes m l → m ∈ component := by
  obtain ⟨component, hcomponent, hmem⟩ := mem_components_iff.2 hl
  exact ⟨component, hcomponent, fun m hlm hml =>
    ((isClass_component hcomponent).mem_iff l hmem m).2 ⟨hlm, hml⟩⟩

/-- Locations share a component if each leads to the other. -/
theorem mem_component_iff (hl : l ∈ nodes) :
    (∃ component ∈ a.components nodes, l ∈ component ∧ m ∈ component) ↔
      a.Leads nodes l m ∧ a.Leads nodes m l := by
  constructor
  · rintro ⟨component, hcomponent, hmem, hmem'⟩
    exact ⟨leads_of_mem_component hcomponent hmem hmem',
      leads_of_mem_component hcomponent hmem' hmem⟩
  · rintro ⟨hlm, hml⟩
    obtain ⟨component, hcomponent, hclass⟩ := exists_component (a := a) hl
    exact ⟨component, hcomponent, hclass l .refl .refl, hclass m hlm hml⟩

/-! ## The spanned part -/

/-- An edge of the part of the automaton that `nodes` spans, without those that leave the error
location. -/
def Spans (a : Automaton) (nodes : List Loc) (l m : Loc) : Prop :=
  l ∈ nodes ∧ m ∈ nodes ∧ l ≠ a.error ∧ ∃ e ∈ a.edges, e.source = l ∧ e.target = m

theorem spans_iff : a.Spans nodes l m ↔ l ∈ nodes ∧ m ∈ a.localTargets nodes l := by
  rw [Spans, mem_localTargets, mem_targets]
  tauto

theorem leads_iff (hl : l ∈ nodes) :
    a.Leads nodes l m ↔ Relation.ReflTransGen (a.Spans nodes) l m := by
  constructor
  · intro h
    induction h with
    | refl => exact .refl
    | tail hlead hedge ih =>
      exact ih.tail (spans_iff.2 ⟨Exploration.mem_of_leads localTargets_subset hl hlead, hedge⟩)
  · intro h
    exact Relation.ReflTransGen.mono (fun _ _ hspans => (spans_iff.1 hspans).2) _ _ h

/-- No edge goes from a component to a later one. -/
theorem not_spans_of_lt {i j : Nat} {c d : List Loc} (hij : i < j)
    (hc : (a.components nodes)[i]? = some c) (hd : (a.components nodes)[j]? = some d)
    (hl : l ∈ c) (hm : m ∈ d) : ¬ a.Spans nodes l m := by
  intro hspans
  obtain ⟨hi, rfl⟩ := List.getElem?_eq_some_iff.1 hc
  obtain ⟨hj, rfl⟩ := List.getElem?_eq_some_iff.1 hd
  have hordered := List.pairwise_iff_getElem.1 (sound_search a nodes).ordered
  exact hordered i j hi hj hij l hl m hm (spans_iff.1 hspans).2

/-- The components of the part that a list of locations spans, repetitions allowed. They part its
members, two of which share a component exactly when each reaches the other; and an edge between two
components goes to the earlier one. -/
theorem components_strongly_connected (a : Automaton) (nodes : List Loc) :
    (∀ component ∈ a.components nodes, component ≠ [] ∧ component.Nodup) ∧
    (a.components nodes).Pairwise List.Disjoint ∧
    (∀ l, (∃ component ∈ a.components nodes, l ∈ component) ↔ l ∈ nodes) ∧
    (∀ l ∈ nodes, ∀ m ∈ nodes,
      (∃ component ∈ a.components nodes, l ∈ component ∧ m ∈ component) ↔
        Relation.ReflTransGen (a.Spans nodes) l m ∧
          Relation.ReflTransGen (a.Spans nodes) m l) ∧
    ∀ (i j : Nat) (c d : List Loc), (a.components nodes)[i]? = some c →
      (a.components nodes)[j]? = some d → i ≠ j → (∃ l ∈ c, ∃ m ∈ d, a.Spans nodes l m) →
        j < i := by
  refine ⟨fun component h => ⟨(isClass_component h).ne_nil, nodup_component h⟩,
    (sound_search a nodes).disjoint, fun l => mem_components_iff, fun l hl m hm => ?_, ?_⟩
  · rw [mem_component_iff hl, leads_iff hl, leads_iff hm]
  · rintro i j c d hc hd hne ⟨l, hl, m, hm, hspans⟩
    by_contra hlt
    have hij : i < j := by omega
    exact not_spans_of_lt hij hc hd hl hm hspans

-- A loop within a loop between the entry and the error location, which leads back to the entry.
example : Automaton.components
    { decls := [], locations := ["entry", "outer", "inner", "done", "error"], entry := 0, error := 4
      edges := [⟨0, 1, []⟩, ⟨1, 2, []⟩, ⟨2, 2, []⟩, ⟨2, 1, []⟩, ⟨1, 3, []⟩, ⟨3, 4, []⟩, ⟨4, 0, []⟩] }
    [0, 1, 2, 3, 4, 1] = [[4], [3], [1, 2], [0]] := by decide

end Automaton

end LoopInvariant
