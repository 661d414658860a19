import LoopInvariant.Proofs.Reasons
import Mathlib.Data.List.Nodup
/-!
# Explanations are derivations

Explaining a true label appends constraints that derive it, each after those that derive its
sources. Explaining a false label derives from the datapoint being true, step by step, what
contradicts the labels, and ends at a constraint without target. A label that was visited before
needs no second explanation: it was explained to the end, since no label is drawn from itself.
-/

namespace LoopInvariant

/-! ## Derivations -/

/-- A datapoint lies inside the target of one of some constraints. -/
def Derived (w : List Constraint) (d : Datapoint) : Prop :=
  ∃ c ∈ w, ∃ t, c.target = some t ∧ d.subset t = true

/-- Every source of a constraint in a list is derived by the constraints before it. -/
def Grounded (w : List Constraint) : Prop :=
  ∀ before c after, w = before ++ c :: after → ∀ s ∈ c.sources, Derived before s

/-- Constraints that derive a contradiction: each at most once and after those that derive its
sources, and the last one, and only that, without a target. -/
structure Derivation (cs : Constraint → Prop) (w : List Constraint) : Prop where
  members : ∀ c ∈ w, cs c
  nodup : w.Nodup
  grounded : Grounded w
  ends : ∃ before last, w = before ++ [last] ∧ last.target = none ∧ ∀ c ∈ before, c.target ≠ none

theorem Derivation.imp {cs cs' : Constraint → Prop} {w : List Constraint} (h : Derivation cs w)
    (himp : ∀ c, cs c → cs' c) : Derivation cs' w :=
  ⟨fun c hc => himp c (h.members c hc), h.nodup, h.grounded, h.ends⟩

section Derivations

variable {w w' : List Constraint} {c : Constraint} {d e : Datapoint}

theorem Derived.mono (h : Derived w d) (hsub : w ⊆ w') : Derived w' d := by
  obtain ⟨c, hc, t, ht, hsubset⟩ := h
  exact ⟨c, hsub hc, t, ht, hsubset⟩

theorem Derived.of_subset (h : Derived w d) (hsub : e.subset d = true) : Derived w e := by
  obtain ⟨c, hc, t, ht, hsubset⟩ := h
  exact ⟨c, hc, t, ht, Datapoint.subset_trans hsub hsubset⟩

theorem derived_target {t : Datapoint} (hc : c ∈ w) (ht : c.target = some t) : Derived w t :=
  ⟨c, hc, t, ht, Datapoint.subset_refl t⟩

theorem Grounded.snoc (h : Grounded w) (hc : ∀ s ∈ c.sources, Derived w s) :
    Grounded (w ++ [c]) := by
  intro before c' after heq s hs
  rcases List.eq_nil_or_concat after with rfl | ⟨rest, last, rfl⟩
  · obtain ⟨rfl, hlast⟩ := List.append_inj' heq rfl
    cases hlast
    exact hc s hs
  · rw [List.concat_eq_append, ← List.cons_append, ← List.append_assoc] at heq
    exact h before c' rest (List.append_inj' heq rfl).1 s hs

end Derivations

/-! ## Chains -/

namespace Chain

variable {chain : Chain} {d e : Datapoint} {p q : Bool} {id : Nat}

theorem knows_visit :
    (chain.visit d p).knows e q = true ↔ e = d ∧ q = p ∨ chain.knows e q = true := by
  rw [knows, knows, visit, SortedMap.get?_insert]
  by_cases heq : e = d
  · simp [heq]
  · simp [heq]

theorem knows_push : (chain.push id).knows e q = chain.knows e q := by
  rw [push]
  split
  · rfl
  · rfl

theorem knows_empty : ({} : Chain).knows e q = false := rfl

end Chain

namespace Knowledge

variable {k : Knowledge} {chain chain' chain'' : Chain} {d e : Datapoint} {l : Label} {fuel id : Nat}
  {c : Constraint} {es : List Datapoint}

def written (k : Knowledge) (chain : Chain) : List Constraint :=
  chain.order.filterMap fun id => k.constraints[id]?

theorem written_push (chain : Chain) (hc : k.constraints[id]? = some c) :
    (c ∈ k.written chain ∧ chain.push id = chain) ∨
      (id ∉ chain.order ∧ (chain.push id).order = chain.order ++ [id] ∧
        k.written (chain.push id) = k.written chain ++ [c]) := by
  rw [Chain.push]
  split
  · next hmem => exact .inl ⟨List.mem_filterMap.2 ⟨id, List.contains_iff_mem.1 hmem, hc⟩, rfl⟩
  · next hnew =>
    refine .inr ⟨fun hmem => hnew (List.contains_iff_mem.2 hmem), rfl, ?_⟩
    simp [written, hc]

/-- A chain whose constraints are derived in turn, all of them with targets. -/
structure Sound (k : Knowledge) (chain : Chain) : Prop where
  nodup : chain.order.Nodup
  grounded : Grounded (k.written chain)
  targets : ∀ c ∈ k.written chain, c.target ≠ none

theorem Sound.visit {p : Bool} (h : k.Sound chain) : k.Sound (chain.visit d p) :=
  ⟨h.nodup, h.grounded, h.targets⟩

theorem sound_empty : k.Sound {} := by
  refine ⟨List.nodup_nil, fun before c after heq => ?_, by simp [written]⟩
  simp [written] at heq

/-- A chain that goes on from another. The labels that it visits are true and are derived. -/
structure Prolongs (k : Knowledge) (chain chain' : Chain) : Prop where
  subset : k.written chain ⊆ k.written chain'
  knows : ∀ x p, chain.knows x p = true → chain'.knows x p = true
  visited : ∀ x p, chain'.knows x p = true →
    chain.knows x p = true ∨ p = true ∧ Derived (k.written chain') x

theorem Prolongs.refl : k.Prolongs chain chain :=
  ⟨List.Subset.refl _, fun _ _ => id, fun _ _ => .inl⟩

theorem Prolongs.trans (h : k.Prolongs chain chain') (h' : k.Prolongs chain' chain'') :
    k.Prolongs chain chain'' := by
  refine ⟨List.Subset.trans h.subset h'.subset, fun x p hx => h'.knows x p (h.knows x p hx),
    fun x p hx => ?_⟩
  rcases h'.visited x p hx with hx | hx
  · exact (h.visited x p hx).imp_right fun hx => ⟨hx.1, hx.2.mono h'.subset⟩
  · exact .inr hx

theorem Prolongs.of_visit (h : k.Prolongs (chain.visit d true) chain')
    (hd : Derived (k.written chain') d) : k.Prolongs chain chain' := by
  refine ⟨h.subset, fun x p hx => h.knows x p (Chain.knows_visit.2 (.inr hx)), fun x p hx => ?_⟩
  rcases h.visited x p hx with hx | hx
  · rcases Chain.knows_visit.1 hx with ⟨rfl, rfl⟩ | hx
    · exact .inr ⟨rfl, hd⟩
    · exact .inl hx
  · exact .inr hx

theorem Sound.push {t : Datapoint} (h : k.Sound chain) (hc : k.constraints[id]? = some c)
    (hsources : ∀ s ∈ c.sources, Derived (k.written chain) s) (ht : c.target = some t) :
    k.Sound (chain.push id) ∧ k.Prolongs chain (chain.push id) ∧
      Derived (k.written (chain.push id)) t := by
  rcases written_push chain hc with ⟨hmem, heq⟩ | ⟨hnew, horder, hwritten⟩
  · rw [heq]
    exact ⟨h, .refl, derived_target hmem ht⟩
  · refine ⟨⟨?_, ?_, ?_⟩, ⟨?_, fun x p hx => ?_, fun x p hx => .inl ?_⟩, ?_⟩
    · rw [horder]
      exact List.nodup_append'.2 ⟨h.nodup, List.nodup_singleton id, by simpa using hnew⟩
    · rw [hwritten]
      exact h.grounded.snoc hsources
    · rw [hwritten, List.forall_mem_append, List.forall_mem_singleton, ht]
      exact ⟨h.targets, Option.some_ne_none t⟩
    · rw [hwritten]
      exact List.subset_append_left _ _
    · rwa [Chain.knows_push]
    · rwa [Chain.knows_push] at hx
    · rw [hwritten]
      exact derived_target (List.mem_append_right _ List.mem_cons_self) ht

/-! ## Fuel -/

def unexplained (k : Knowledge) (chain : Chain) : Nat :=
  k.labels.entries.countP fun x => !chain.knows x.1 x.2.polarity

theorem unexplained_le_size (k : Knowledge) (chain : Chain) : k.unexplained chain ≤ k.labels.size :=
  List.countP_le_length

theorem unexplained_lt_fuel : k.unexplained chain < k.explainFuel := by
  have hle := unexplained_le_size k chain
  rw [explainFuel]
  omega

theorem Prolongs.unexplained_le (h : k.Prolongs chain chain') :
    k.unexplained chain' ≤ k.unexplained chain := by
  refine List.countP_mono_left fun x _ hx => ?_
  rw [Bool.not_eq_true', Bool.eq_false_iff] at hx ⊢
  exact fun hknows => hx (h.knows _ _ hknows)

theorem unexplained_visit (hl : k.label? d = some l) (hnew : chain.knows d l.polarity = false) :
    k.unexplained (chain.visit d l.polarity) < k.unexplained chain := by
  have hmem : (d, l) ∈ k.labels.entries := SortedMap.mem_entries_iff.2 hl
  have hfilter : k.labels.entries.filter (fun x =>
      !(chain.visit d l.polarity).knows x.1 x.2.polarity) =
        (k.labels.entries.filter fun x => !chain.knows x.1 x.2.polarity).filter fun x =>
          !(chain.visit d l.polarity).knows x.1 x.2.polarity := by
    rw [List.filter_filter]
    refine List.filter_congr fun x _ => ?_
    rw [Bool.eq_iff_iff]
    simp only [Bool.and_eq_true, Bool.not_eq_true', ← Bool.not_eq_true, Chain.knows_visit]
    tauto
  rw [unexplained, unexplained, List.countP_eq_length_filter, List.countP_eq_length_filter, hfilter]
  refine List.length_filter_lt_length_iff_exists.2 ⟨(d, l), ?_, ?_⟩
  · exact List.mem_filter.2 ⟨hmem, by rw [hnew]; rfl⟩
  · simp [Chain.knows_visit]

/-! ## The steps of an explanation -/

def explainPoint (k : Knowledge) (fuel : Nat) (chain : Chain) (e : Datapoint) : Chain :=
  match k.label? e with
  | some l => k.explain fuel e l chain
  | none => chain

theorem explainPoint_eq (hl : k.label? e = some l) :
    k.explainPoint fuel chain e = k.explain fuel e l chain := by
  rw [explainPoint, hl]

theorem explain_known (h : chain.knows d l.polarity = true) :
    k.explain (fuel + 1) d l chain = chain := by
  rw [explain, if_pos h]

theorem explain_subsumed (hnew : chain.knows d l.polarity = false)
    (hreason : l.reason = .subsumed e) :
    k.explain (fuel + 1) d l chain = k.explainPoint fuel (chain.visit d l.polarity) e := by
  rw [explain, hnew, hreason]
  rfl

theorem explain_forced_true (hnew : chain.knows d l.polarity = false)
    (hreason : l.reason = .constraint id) (hc : k.constraints[id]? = some c)
    (htrue : l.polarity = true) :
    k.explain (fuel + 1) d l chain =
      (c.sources.foldl (k.explainPoint fuel) (chain.visit d true)).push id := by
  rw [explain, hnew, hreason, htrue]
  simp only [hc]
  rfl

theorem explain_forced_false (hnew : chain.knows d l.polarity = false)
    (hreason : l.reason = .constraint id) (hc : k.constraints[id]? = some c)
    (hfalse : l.polarity = false) :
    k.explain (fuel + 1) d l chain = c.target.toList.foldl (k.explainPoint fuel)
      (((c.sources.filter (· ≠ d)).foldl (k.explainPoint fuel) (chain.visit d false)).push id) := by
  rw [explain, hnew, hreason, hfalse]
  simp only [hc]
  rfl

/-! ## True labels -/

/-- What was visited is derived, or is not needed for a datapoint. -/
def Unblocked (k : Knowledge) (chain : Chain) (d : Datapoint) : Prop :=
  ∀ x, chain.knows x true = true →
    Derived (k.written chain) x ∨ ¬Relation.ReflTransGen k.Premise x d

/-- A chain to which the explanation of a datapoint can be appended. -/
structure Ready (k : Knowledge) (fuel : Nat) (chain : Chain) (d : Datapoint) : Prop where
  sound : k.Sound chain
  unblocked : k.Unblocked chain d
  lt_fuel : k.unexplained chain < fuel

/-- The explanation of a datapoint was appended to a chain. -/
structure Explained (k : Knowledge) (chain chain' : Chain) (d : Datapoint) : Prop where
  sound : k.Sound chain'
  prolongs : k.Prolongs chain chain'
  derived : Derived (k.written chain') d

theorem Ready.prolong (h : k.Ready fuel chain d) (hsound : k.Sound chain')
    (hprolongs : k.Prolongs chain chain') : k.Ready fuel chain' d := by
  refine ⟨hsound, fun x hx => ?_, Nat.lt_of_le_of_lt hprolongs.unexplained_le h.lt_fuel⟩
  rcases hprolongs.visited x true hx with hx | ⟨-, hx⟩
  · exact (h.unblocked x hx).imp_left fun hx => hx.mono hprolongs.subset
  · exact .inl hx

theorem explained_foldl {step : Chain → Datapoint → Chain}
    (hstep : ∀ chain, ∀ e ∈ es, k.Ready fuel chain e → k.Explained chain (step chain e) e)
    (hsound : k.Sound chain) (hready : ∀ e ∈ es, k.Ready fuel chain e) :
    k.Sound (es.foldl step chain) ∧ k.Prolongs chain (es.foldl step chain) ∧
      ∀ e ∈ es, Derived (k.written (es.foldl step chain)) e := by
  induction es generalizing chain with
  | nil => exact ⟨hsound, .refl, by simp⟩
  | cons e es ih =>
    have he := hstep chain e List.mem_cons_self (hready e List.mem_cons_self)
    obtain ⟨hsound', hprolongs, hderived⟩ := ih
      (fun chain f hf => hstep chain f (List.mem_cons_of_mem e hf)) he.sound
      fun f hf => (hready f (List.mem_cons_of_mem e hf)).prolong he.sound he.prolongs
    refine ⟨hsound', he.prolongs.trans hprolongs, List.forall_mem_cons.2 ⟨?_, hderived⟩⟩
    exact he.derived.mono hprolongs.subset

/-- A true label is explained once everything it is drawn from can be. -/
theorem explained_step (hl : k.Justified d l) (htrue : l.polarity = true)
    (hnew : chain.knows d true = false) (hsound : k.Sound chain)
    (hready : ∀ e, l.Needs k.constraints d e → k.Ready fuel (chain.visit d true) e)
    (hone : ∀ e chain, k.HasLabel false e true → k.Ready fuel chain e →
      k.Explained chain (k.explainPoint fuel chain e) e) :
    k.Explained chain (k.explain (fuel + 1) d l chain) d := by
  have hunknown : chain.knows d l.polarity = false := htrue ▸ hnew
  cases hl with
  | @subsumed e hreason hinherits hlabel =>
    rw [explain_subsumed hunknown hreason, htrue]
    rw [htrue] at hinherits hlabel
    have he := hone e _ hlabel.weaken (hready e (.subsumed hreason))
    have hd := he.derived.of_subset hinherits
    exact ⟨he.sound, he.prolongs.of_visit hd, hd⟩
  | @forced _ c hreason hc hforces =>
    rw [explain_forced_true hunknown hreason hc htrue]
    rw [htrue] at hforces
    have hvisit : k.Sound (chain.visit d true) := hsound.visit
    have hsource : ∀ s ∈ c.sources, k.Ready fuel (chain.visit d true) s := fun s hs =>
      hready s (.source hreason hc hs fun hfalse => absurd htrue (by simp [hfalse]))
    obtain ⟨hsound', hprolongs, hsources⟩ := explained_foldl
      (fun chain s hs => hone s chain (hforces.2 s hs).weaken) hvisit hsource
    obtain ⟨hsound'', hprolongs', hd⟩ := hsound'.push hc hsources hforces.1
    exact ⟨hsound'', (hprolongs.trans hprolongs').of_visit hd, hd⟩

/-- The premises of a datapoint can be explained while it is visited. -/
theorem Unblocked.visit (hk : k.Reasoned) (h : k.Unblocked chain d) (hpremise : k.Premise e d) :
    k.Unblocked (chain.visit d true) e := by
  intro x hx
  rcases Chain.knows_visit.1 hx with ⟨rfl, -⟩ | hx
  · exact .inr (hk.not_leads hpremise)
  · exact (h x hx).imp_right fun hleads hxe => hleads (hxe.tail hpremise)

theorem explained_of_label (hk : k.Reasoned) (hl : k.label? d = some l) (htrue : l.polarity = true)
    (hready : k.Ready fuel chain d) : k.Explained chain (k.explain fuel d l chain) d := by
  induction fuel generalizing d l chain with
  | zero => exact absurd hready.lt_fuel (Nat.not_lt_zero _)
  | succ fuel ih =>
    cases hknown : chain.knows d true with
    | true =>
      rw [explain_known (htrue ▸ hknown)]
      have hd := (hready.unblocked d hknown).resolve_right fun hleads => hleads .refl
      exact ⟨hready.sound, .refl, hd⟩
    | false =>
      have hfewer := unexplained_visit hl (htrue ▸ hknown)
      rw [htrue] at hfewer
      refine explained_step (hk.justified d l hl) htrue hknown hready.sound (fun e he => ?_) ?_
      · have hlt := hready.lt_fuel
        exact ⟨hready.sound.visit, hready.unblocked.visit hk ⟨l, hl, he⟩, by omega⟩
      · intro e chain he hready
        obtain ⟨l', hl', htrue', -⟩ := he
        rw [explainPoint_eq hl']
        exact ih hl' htrue' hready

theorem explained_point (hk : k.Reasoned) (he : k.HasLabel false e true)
    (hready : k.Ready fuel chain e) : k.Explained chain (k.explainPoint fuel chain e) e := by
  obtain ⟨l, hl, htrue, -⟩ := he
  rw [explainPoint_eq hl]
  exact explained_of_label hk hl htrue hready

theorem explained_points (hk : k.Reasoned) (htrue : ∀ e ∈ es, k.HasLabel false e true)
    (hsound : k.Sound chain) (hready : ∀ e ∈ es, k.Ready fuel chain e) :
    k.Sound (es.foldl (k.explainPoint fuel) chain) ∧
      k.Prolongs chain (es.foldl (k.explainPoint fuel) chain) ∧
      ∀ e ∈ es, Derived (k.written (es.foldl (k.explainPoint fuel) chain)) e :=
  explained_foldl (fun _ e he => explained_point hk (htrue e he)) hsound hready

/-! ## False labels -/

/-- A chain that derives a contradiction. -/
structure Refutes (k : Knowledge) (chain : Chain) : Prop where
  nodup : chain.order.Nodup
  grounded : Grounded (k.written chain)
  ends : ∃ before last, k.written chain = before ++ [last] ∧ last.target = none ∧
    ∀ c ∈ before, c.target ≠ none

theorem Sound.refutes (h : k.Sound chain) (hc : k.constraints[id]? = some c)
    (hsources : ∀ s ∈ c.sources, Derived (k.written chain) s) (hnone : c.target = none) :
    k.Refutes (chain.push id) := by
  rcases written_push chain hc with ⟨hmem, -⟩ | ⟨hnew, horder, hwritten⟩
  · exact absurd hnone (h.targets c hmem)
  · refine ⟨?_, ?_, _, c, hwritten, hnone, h.targets⟩
    · rw [horder]
      exact List.nodup_append'.2 ⟨h.nodup, List.nodup_singleton id, by simpa using hnew⟩
    · rw [hwritten]
      exact h.grounded.snoc hsources

theorem Refutes.derivation (h : k.Refutes chain) (hnodup : k.constraints.toList.Nodup) :
    Derivation (· ∈ k.constraints) (k.contradiction chain).witness := by
  refine ⟨fun c hc => ?_, h.nodup.filterMap fun i j c hi hj => ?_, h.grounded, h.ends⟩
  · obtain ⟨i, -, hi⟩ := List.mem_filterMap.1 hc
    exact Array.mem_of_getElem? hi
  · rw [Option.mem_def, ← Array.getElem?_toList] at hi hj
    obtain ⟨hlt, -⟩ := List.getElem?_eq_some_iff.1 hi
    exact (List.getElem?_inj hlt hnodup).1 (hi.trans hj.symm)

/-- A chain from which a false datapoint is pursued. It derives the datapoint, and whatever was
visited is derived if true, and is not needed for the datapoint if false. -/
structure Pursued (k : Knowledge) (fuel : Nat) (chain : Chain) (d : Datapoint) : Prop where
  sound : k.Sound chain
  derived : Derived (k.written chain) d
  visited : ∀ x, chain.knows x true = true → Derived (k.written chain) x
  ahead : ∀ x, chain.knows x false = true → k.HasLabel false x false →
    ¬Relation.ReflTransGen k.Premise x d
  lt_fuel : k.unexplained chain < fuel

theorem Pursued.unknown (h : k.Pursued fuel chain d) (hl : k.label? d = some l)
    (hfalse : l.polarity = false) : chain.knows d l.polarity = false := by
  rw [hfalse, Bool.eq_false_iff]
  exact fun hknown => h.ahead d hknown ⟨l, hl, hfalse, nofun⟩ .refl

theorem Pursued.unexplained_lt (h : k.Pursued (fuel + 1) chain d) (hl : k.label? d = some l)
    (hfalse : l.polarity = false) : k.unexplained (chain.visit d false) < fuel := by
  have hfewer := unexplained_visit hl (h.unknown hl hfalse)
  rw [hfalse] at hfewer
  have hlt := h.lt_fuel
  omega

/-- While a false datapoint is pursued, every true one can be explained. -/
theorem Pursued.ready (h : k.Pursued (fuel + 1) chain d) (hl : k.label? d = some l)
    (hfalse : l.polarity = false) : k.Ready fuel (chain.visit d false) e := by
  refine ⟨h.sound.visit, fun x hx => .inl ?_, h.unexplained_lt hl hfalse⟩
  rcases Chain.knows_visit.1 hx with ⟨-, hpolarity⟩ | hx
  · cases hpolarity
  · exact h.visited x hx

/-- The pursuit goes on with what the false label is drawn from. -/
theorem Pursued.next (hk : k.Reasoned) (h : k.Pursued (fuel + 1) chain d)
    (hl : k.label? d = some l) (hfalse : l.polarity = false) (hneeds : l.Needs k.constraints d e)
    (hsound : k.Sound chain') (hprolongs : k.Prolongs (chain.visit d false) chain')
    (hderived : Derived (k.written chain') e) : k.Pursued fuel chain' e := by
  have hpremise : k.Premise e d := ⟨l, hl, hneeds⟩
  refine ⟨hsound, hderived, fun x hx => ?_, fun x hx hlabel => ?_,
    Nat.lt_of_le_of_lt hprolongs.unexplained_le (h.unexplained_lt hl hfalse)⟩
  · rcases hprolongs.visited x true hx with hx | ⟨-, hx⟩
    · rcases Chain.knows_visit.1 hx with ⟨-, hpolarity⟩ | hx
      · cases hpolarity
      · exact (h.visited x hx).mono hprolongs.subset
    · exact hx
  · rcases hprolongs.visited x false hx with hx | ⟨hpolarity, -⟩
    · rcases Chain.knows_visit.1 hx with ⟨rfl, -⟩ | hx
      · exact hk.not_leads hpremise
      · exact fun hleads => h.ahead x hx hlabel (hleads.tail hpremise)
    · cases hpolarity

/-- Pursuing a false label ends at a constraint without target. -/
theorem refutes_of_label (hk : k.Reasoned) (hl : k.label? d = some l) (hfalse : l.polarity = false)
    (h : k.Pursued fuel chain d) : k.Refutes (k.explain fuel d l chain) := by
  induction fuel generalizing d l chain with
  | zero => exact absurd h.lt_fuel (Nat.not_lt_zero _)
  | succ fuel ih =>
    have hnew := h.unknown hl hfalse
    have hone : ∀ e chain, k.HasLabel false e false → k.Pursued fuel chain e →
        k.Refutes (k.explainPoint fuel chain e) := by
      intro e chain he h
      obtain ⟨l', hl', hfalse', -⟩ := he
      rw [explainPoint_eq hl']
      exact ih hl' hfalse' h
    cases hk.justified d l hl with
    | @subsumed e hreason hinherits hlabel =>
      rw [hfalse] at hinherits hlabel
      rw [explain_subsumed hnew hreason, hfalse]
      apply hone e _ hlabel.weaken
      exact h.next hk hl hfalse (.subsumed hreason) h.sound.visit .refl
        (h.derived.of_subset hinherits)
    | @forced id c hreason hc hforces =>
      rw [hfalse] at hforces
      obtain ⟨hd, htarget, hothers⟩ := hforces
      rw [explain_forced_false hnew hreason hc hfalse]
      have htrue : ∀ s ∈ c.sources.filter (· ≠ d), k.HasLabel false s true := by
        intro s hs
        obtain ⟨hs, hne⟩ := List.mem_filter.1 hs
        exact (hothers s hs (of_decide_eq_true hne)).weaken
      -- the other sources are explained first, and the datapoint itself is derived already
      obtain ⟨hsound, hprolongs, hsources⟩ :=
        explained_points hk htrue h.sound.visit fun s _ => h.ready hl hfalse
      have hall : ∀ s ∈ c.sources, Derived (k.written ((c.sources.filter (· ≠ d)).foldl
          (k.explainPoint fuel) (chain.visit d false))) s := by
        intro s hs
        by_cases heq : s = d
        · exact heq ▸ h.derived.mono hprolongs.subset
        · exact hsources s (List.mem_filter.2 ⟨hs, decide_eq_true heq⟩)
      cases ht : c.target with
      | none => exact hsound.refutes hc hall ht
      | some t =>
        obtain ⟨hsound', hprolongs', hderived⟩ := hsound.push hc hall ht
        exact hone t _ (htarget t ht).weaken (h.next hk hl hfalse (.target hreason hc hfalse ht)
          hsound' (hprolongs.trans hprolongs') hderived)

/-! ## Contradictions -/

theorem ready_empty : k.Ready k.explainFuel {} d := by
  refine ⟨sound_empty, fun x hx => ?_, unexplained_lt_fuel⟩
  cases hx

theorem Prolongs.derived_of_empty {x : Datapoint} (h : k.Prolongs {} chain)
    (hx : chain.knows x true = true) : Derived (k.written chain) x :=
  ((h.visited x true hx).resolve_left Bool.false_ne_true).2

theorem Prolongs.unknown_of_empty {x : Datapoint} (h : k.Prolongs {} chain) :
    chain.knows x false = false := by
  rw [Bool.eq_false_iff]
  intro hx
  exact absurd ((h.visited x false hx).resolve_left Bool.false_ne_true).1 Bool.false_ne_true

theorem refutes_of_true {t f : Label} (hk : k.Reasoned) (ht : k.Justified d t)
    (htrue : t.polarity = true) (hf : k.label? d = some f) (hfalse : f.polarity = false) :
    k.Refutes (k.explain k.explainFuel d f (k.explain k.explainFuel d t {})) := by
  have hexplained : k.Explained {} (k.explain k.explainFuel d t {}) d := by
    refine explained_step ht htrue Chain.knows_empty sound_empty (fun e he => ?_)
      fun e chain => explained_point hk
    refine ⟨sound_empty.visit, fun x hx => .inr fun hleads => ?_, ?_⟩
    · -- only true labels are needed, and the datapoint is false
      rcases Chain.knows_visit.1 hx with ⟨rfl, -⟩ | hx
      · obtain ⟨q, hq, hpolarity⟩ := ht.hasLabel he
        have hd := hk.true_of_leads (hpolarity htrue ▸ hq).weaken hleads
        cases hd.unique (⟨f, hf, hfalse, nofun⟩ : k.HasLabel false x false)
      · cases hx
    · have hle := unexplained_le_size k (({} : Chain).visit d true)
      omega
  refine refutes_of_label hk hf hfalse ⟨hexplained.sound, hexplained.derived,
    fun x => hexplained.prolongs.derived_of_empty, fun x hx => ?_, unexplained_lt_fuel⟩
  rw [hexplained.prolongs.unknown_of_empty] at hx
  cases hx

theorem refutes_of_false {t f : Label} (hk : k.Reasoned) (hf : k.HasLabel false e false)
    (hsub : e.subset d = true) (hfalse : f.polarity = false) (hreason : f.reason = .subsumed e)
    (ht : k.label? d = some t) (htrue : t.polarity = true) :
    k.Refutes (k.explain k.explainFuel d f (k.explain k.explainFuel d t {})) := by
  have hexplained := explained_of_label hk ht htrue ready_empty
  generalize k.explain k.explainFuel d t {} = chain at hexplained
  have hunknown : chain.knows d f.polarity = false := by
    rw [hfalse]
    exact hexplained.prolongs.unknown_of_empty
  obtain ⟨l, hl, hpolarity, -⟩ := hf
  rw [explainFuel, explain_subsumed hunknown hreason, explainPoint_eq hl, hfalse]
  refine refutes_of_label hk hl hpolarity ⟨hexplained.sound.visit, hexplained.derived.of_subset hsub,
    fun x hx => ?_, fun x hx hlabel => ?_, ?_⟩
  · rcases Chain.knows_visit.1 hx with ⟨-, hpolarity⟩ | hx
    · cases hpolarity
    · exact hexplained.prolongs.derived_of_empty hx
  · rcases Chain.knows_visit.1 hx with ⟨rfl, -⟩ | hx
    · cases hlabel.unique (⟨t, ht, htrue, nofun⟩ : k.HasLabel false x true)
    · rw [hexplained.prolongs.unknown_of_empty] at hx
      cases hx
  · have hle := unexplained_le_size k (chain.visit d false)
    omega

theorem refutes_of_sources (hk : k.Reasoned) (hc : k.constraints[id]? = some c)
    (hnone : c.target = none) (htrue : ∀ s ∈ c.sources, k.HasLabel false s true) :
    k.Refutes ((c.sources.foldl (k.explainPoint k.explainFuel) {}).push id) := by
  obtain ⟨hsound, -, hsources⟩ := explained_points hk htrue sound_empty fun _ _ => ready_empty
  exact hsound.refutes hc hsources hnone

end Knowledge

end LoopInvariant
