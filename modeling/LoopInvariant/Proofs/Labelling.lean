import LoopInvariant.Proofs.Registration
import Mathlib.Order.Hom.Basic
/-!
# What gives a label

The rules of deduction as one monotone function of the labels that are given, and every operation
described by the labels that it adds.

Universal labels and all labels are treated alike: a label counts at a level if it is universal or
need not be. A constraint adds a label at the levels where it counts and the labels that force the
new one do.
-/

namespace LoopInvariant

/-! ## The rules -/

/-- What a constraint forces where some labels are given: its target is true if all sources are, and a
source is false if the target is false or missing and all other sources are true. -/
def Constraint.Forces (c : Constraint) (L : Datapoint → Bool → Prop) (d : Datapoint) : Bool → Prop
  | true => c.target = some d ∧ ∀ s ∈ c.sources, L s true
  | false => d ∈ c.sources ∧ (∀ t, c.target = some t → L t false) ∧
      ∀ s ∈ c.sources, s ≠ d → L s true

/-- The labels from which a constraint may force one of the same polarity or the other. -/
def Constraint.Asks (c : Constraint) (d : Datapoint) : Bool → Prop
  | true => d ∈ c.sources
  | false => c.target = some d

def Constraint.Obeyed (c : Constraint) (L : Datapoint → Bool → Prop) : Prop :=
  ∀ d p, c.Forces L d p → L d p

namespace Constraint

variable {c : Constraint} {L L' : Datapoint → Bool → Prop} {d e : Datapoint} {p q : Bool}

theorem Forces.imp (h : c.Forces L d p) (himp : ∀ e q, c.Asks e q → L e q → L' e q) :
    c.Forces L' d p := by
  cases p with
  | true => exact ⟨h.1, fun s hs => himp s true hs (h.2 s hs)⟩
  | false =>
    obtain ⟨hd, htarget, hrest⟩ := h
    refine ⟨hd, fun t ht => himp t false ht (htarget t ht), fun s hs hne => ?_⟩
    exact himp s true hs (hrest s hs hne)

theorem Forces.of_asks (h : c.Forces L d p) (he : c.Asks e p) : L e p := by
  cases p with
  | true => exact h.2 e he
  | false => exact h.2.1 e he

/-- What is forced by some labels is all that is forced when it is one of the labels. -/
theorem Forces.unique (hone : ∀ x, L' x true → ¬L' x false) (h : c.Forces L d p)
    (h' : c.Forces L' e q) (hd : L' d p) : e = d ∧ q = p := by
  cases p with
  | true =>
    cases q with
    | true => exact ⟨Option.some.inj (h'.1.symm.trans h.1), rfl⟩
    | false => exact absurd (h'.2.1 d h.1) (hone d hd)
  | false =>
    cases q with
    | true => exact absurd hd (hone d (h'.2 d h.1))
    | false =>
      by_cases heq : e = d
      · exact ⟨heq, rfl⟩
      · exact absurd hd (hone d (h'.2.2 d h.1 (Ne.symm heq)))

end Constraint

/-- Whether a datapoint takes over the labels of a polarity from another: true ones from around, and
false ones from inside. -/
def Datapoint.inherits (d : Datapoint) : Bool → Datapoint → Bool
  | true, e => d.subset e
  | false, e => e.subset d

/-- What follows by one rule from given labels. -/
inductive Follows (cs : Constraint → Prop) (points : Datapoint → Prop)
    (L : Datapoint → Bool → Prop) : Datapoint → Bool → Prop where
  | forced {c : Constraint} {d : Datapoint} {p : Bool} (hc : cs c) (h : c.Forces L d p) :
      Follows cs points L d p
  | inherited {d e : Datapoint} {p : Bool} (hd : points d) (h : d.inherits p e = true) (he : L e p) :
      Follows cs points L d p

def rules (cs : Constraint → Prop) (points : Datapoint → Prop) :
    (Datapoint → Bool → Prop) →o (Datapoint → Bool → Prop) where
  toFun := Follows cs points
  monotone' := by
    intro L L' hle d p h
    cases h with
    | forced hc h => exact .forced hc (h.imp fun e q _ => hle e q)
    | inherited hd h he => exact .inherited hd h (hle _ _ he)

namespace Knowledge

variable {k : Knowledge} {sure : Bool} {d e : Datapoint} {p q : Bool} {l : Label}
  {queue : List Pending} {s s' : Knowledge × List Pending}

/-- A datapoint has a label of a polarity, which is universal if it has to be sure. -/
def HasLabel (k : Knowledge) (sure : Bool) (d : Datapoint) (p : Bool) : Prop :=
  ∃ l, k.label? d = some l ∧ l.polarity = p ∧ (sure = true → l.universal = true)

/-- The constraints that give labels at a level: all, or those that are no guesses. -/
def Counts (k : Knowledge) (sure : Bool) (c : Constraint) : Prop :=
  c ∈ k.constraints ∧ (sure = true → c.isAssumed = false)

theorem counts_of_mem {c : Constraint} (hc : c ∈ k.constraints) : k.Counts false c :=
  ⟨hc, fun hsure => absurd hsure Bool.false_ne_true⟩

theorem HasLabel.unique {sure' : Bool} (h : k.HasLabel sure d p) (h' : k.HasLabel sure' d q) :
    p = q := by
  obtain ⟨l, hl, rfl, -⟩ := h
  obtain ⟨l', hl', rfl, -⟩ := h'
  cases hl.symm.trans hl'
  rfl

theorem HasLabel.weaken (h : k.HasLabel sure d p) : k.HasLabel false d p := by
  obtain ⟨l, hl, hp, -⟩ := h
  exact ⟨l, hl, hp, nofun⟩

theorem HasLabel.lower (h : k.HasLabel true d p) : k.HasLabel sure d p := by
  obtain ⟨l, hl, hp, huniversal⟩ := h
  exact ⟨l, hl, hp, fun _ => huniversal rfl⟩

theorem hasLabel_false : k.HasLabel false d p ↔ ∃ l, k.label? d = some l ∧ l.polarity = p := by
  simp [HasLabel]

theorem isTrue_iff_hasLabel : k.isTrue d = true ↔ k.HasLabel false d true := by
  rw [isTrue_iff, hasLabel_false]

theorem isDecided_iff_hasLabel : k.isDecided p d = true ↔ k.HasLabel true d p := by
  simp only [isDecided, Option.any_eq_true, Bool.and_eq_true, beq_iff_eq, HasLabel, forall_const]
  exact exists_congr fun l => and_congr_right fun _ => and_comm

/-! ## What operations add -/

theorem hasLabel_relabel :
    HasLabel { k with labels := k.labels.insert d l } sure e p ↔
      if e = d then l.polarity = p ∧ (sure = true → l.universal = true) else k.HasLabel sure e p := by
  simp only [HasLabel, label?_relabel]
  split
  · simp
  · rfl

theorem hasLabel_setLabel (h : k.setLabel d l queue = .ok s) :
    s.1.HasLabel sure e p ↔ k.HasLabel sure e p ∨
      e = d ∧ l.polarity = p ∧ (sure = true → l.universal = true) := by
  rw [setLabel] at h
  cases hold : k.label? d with
  | none =>
    have hnone : ∀ p, ¬k.HasLabel sure d p := by
      intro p hlabel
      obtain ⟨l', hl', -⟩ := hlabel
      cases hold.symm.trans hl'
    simp only [hold] at h
    cases h
    rw [hasLabel_relabel]
    split
    · next heq => simp [heq, hnone]
    · next hne => simp [hne]
  | some old =>
    simp only [hold] at h
    have hd : ∀ p, k.HasLabel sure d p ↔
        old.polarity = p ∧ (sure = true → old.universal = true) := by
      simp [HasLabel, hold]
    split at h
    · next hpolarity =>
      split at h
      · next huniversal =>
        cases h
        rw [Bool.and_eq_true, Bool.not_eq_true'] at huniversal
        rw [hasLabel_relabel]
        split
        · next heq =>
          rw [heq, hd, hpolarity]
          simp only [huniversal, true_and]
          tauto
        · next hne => simp [hne]
      · next hkept =>
        cases h
        refine ⟨.inl, fun hor => hor.elim id ?_⟩
        rintro ⟨rfl, hp, hsure⟩
        refine (hd p).2 ⟨hpolarity.trans hp, fun htrue => ?_⟩
        simpa [hsure htrue] using hkept
    · cases h

/-- What giving a label can do: put it where no label counts at a level where it does, keep the one
that is there, or find a contradiction with it. -/
theorem setLabel_cases (k : Knowledge) (d : Datapoint) (l : Label) (queue : List Pending) :
    (∃ sure, (sure = true → l.universal = true) ∧ (∀ p, ¬k.HasLabel sure d p) ∧
        k.setLabel d l queue =
          .ok ({ k with labels := k.labels.insert d l }, queue ++ [.labelled d])) ∨
      k.setLabel d l queue = .ok (k, queue) ∨
      ∃ t f, t.polarity = true ∧ f.polarity = false ∧
        (t = l ∧ k.label? d = some f ∨ f = l ∧ k.label? d = some t) ∧
        k.setLabel d l queue =
          .error (k.contradiction (k.explain k.explainFuel d f (k.explain k.explainFuel d t {}))) := by
  rw [setLabel]
  cases hold : k.label? d with
  | none =>
    refine .inl ⟨false, fun h => absurd h Bool.false_ne_true, fun p hp => ?_, rfl⟩
    obtain ⟨l', hl', -⟩ := hp
    cases hold.symm.trans hl'
  | some old =>
    simp only
    split
    · split
      · next huniversal =>
        rw [Bool.and_eq_true, Bool.not_eq_true'] at huniversal
        refine .inl ⟨true, fun _ => huniversal.1, fun p hp => ?_, rfl⟩
        obtain ⟨l', hl', -, hsure⟩ := hp
        cases hold.symm.trans hl'
        cases huniversal.2.symm.trans (hsure rfl)
      · exact .inr (.inl rfl)
    · next hne =>
      cases hpolarity : l.polarity with
      | true =>
        rw [hpolarity, Bool.not_eq_true] at hne
        exact .inr (.inr ⟨l, old, hpolarity, hne, .inl ⟨rfl, rfl⟩, rfl⟩)
      | false =>
        rw [hpolarity, Bool.not_eq_false] at hne
        exact .inr (.inr ⟨old, l, hne, hpolarity, .inr ⟨rfl, rfl⟩, rfl⟩)

structure Advances (s s' : Knowledge × List Pending) : Prop where
  constraints_eq : s'.1.constraints = s.1.constraints
  retired_eq : s'.1.retired = s.1.retired
  points_eq : s'.1.points = s.1.points
  queue_subset : s.2 ⊆ s'.2
  keeps : ∀ {sure d p}, s.1.HasLabel sure d p → s'.1.HasLabel sure d p
  announced : ∀ {sure d p}, s'.1.HasLabel sure d p → s.1.HasLabel sure d p ∨ .labelled d ∈ s'.2

theorem Advances.refl (s : Knowledge × List Pending) : Advances s s :=
  ⟨rfl, rfl, rfl, List.Subset.refl _, id, .inl⟩

theorem Advances.trans {s'' : Knowledge × List Pending} (h : Advances s s')
    (h' : Advances s' s'') : Advances s s'' where
  constraints_eq := h'.constraints_eq.trans h.constraints_eq
  retired_eq := h'.retired_eq.trans h.retired_eq
  points_eq := h'.points_eq.trans h.points_eq
  queue_subset := fun _ hmem => h'.queue_subset (h.queue_subset hmem)
  keeps := fun hd => h'.keeps (h.keeps hd)
  announced := fun hd => (h'.announced hd).elim
    (fun hd => (h.announced hd).imp_right (h'.queue_subset ·)) .inr

theorem Advances.datapoints_eq (h : Advances s s') : s'.1.datapoints = s.1.datapoints := by
  rw [datapoints, h.points_eq, datapoints]

theorem advances_setLabel (h : k.setLabel d l queue = .ok s) : Advances (k, queue) s := by
  have hlabels := @hasLabel_setLabel k
  have hshape : s = (k, queue) ∨
      s = ({ k with labels := k.labels.insert d l }, queue ++ [.labelled d]) := by
    rcases setLabel_cases k d l queue with ⟨_, -, -, heq⟩ | heq | ⟨_, _, -, -, -, heq⟩
    · exact .inr (Except.ok.inj (h.symm.trans heq))
    · exact .inl (Except.ok.inj (h.symm.trans heq))
    · cases h.symm.trans heq
  rcases hshape with rfl | hs
  · exact .refl _
  · refine ⟨by rw [hs], by rw [hs], by rw [hs], by rw [hs]; exact List.subset_append_left _ _,
      fun he => (hlabels h).2 (.inl he), fun he => ?_⟩
    rcases (hlabels h).1 he with he | ⟨rfl, -⟩
    · exact .inl he
    · rw [hs]
      exact .inr (List.mem_append_right _ List.mem_cons_self)

theorem hasLabel_spread {polarity universal : Bool} {es : List Datapoint}
    (h : spread d polarity universal es s = .ok s') :
    Advances s s' ∧ ∀ {sure e p}, s'.1.HasLabel sure e p ↔ s.1.HasLabel sure e p ∨
      e ∈ es ∧ polarity = p ∧ (sure = true → universal = true) := by
  induction es generalizing s with
  | nil =>
    cases h
    exact ⟨.refl _, by simp⟩
  | cons f es ih =>
    rw [spread] at h
    split at h
    · next s₁ hset =>
      obtain ⟨hadvances, hlabels⟩ := ih h
      refine ⟨(advances_setLabel hset).trans hadvances, fun {sure e p} => ?_⟩
      rw [hlabels, hasLabel_setLabel hset, List.mem_cons, or_assoc, or_and_right]
    · cases h

theorem hasLabel_inherit {ls : List (Datapoint × Label)} (h : inherit d ls s = .ok s') :
    Advances s s' ∧ ∀ {sure e p}, s'.1.HasLabel sure e p ↔ s.1.HasLabel sure e p ∨
      e = d ∧ ∃ f l, (f, l) ∈ ls ∧ l.polarity = d.subset f ∧ l.polarity = p ∧
        (sure = true → l.universal = true) := by
  induction ls generalizing s with
  | nil =>
    cases h
    exact ⟨.refl _, by simp⟩
  | cons x ls ih =>
    obtain ⟨f, l⟩ := x
    rw [inherit] at h
    split at h
    · next htakes =>
      split at h
      · next s₁ hset =>
        obtain ⟨hadvances, hlabels⟩ := ih h
        refine ⟨(advances_setLabel hset).trans hadvances, fun {sure e p} => ?_⟩
        rw [hlabels, hasLabel_setLabel hset]
        constructor
        · rintro ((he | ⟨heq, hp⟩) | ⟨heq, f', l', hmem, hrest⟩)
          · exact .inl he
          · exact .inr ⟨heq, f, l, List.mem_cons_self, htakes, hp⟩
          · exact .inr ⟨heq, f', l', List.mem_cons_of_mem _ hmem, hrest⟩
        · rintro (he | ⟨heq, f', l', hmem, htakes', hp⟩)
          · exact .inl (.inl he)
          · rcases List.mem_cons.1 hmem with hsame | hmem
            · cases hsame
              exact .inl (.inr ⟨heq, hp⟩)
            · exact .inr ⟨heq, f', l', hmem, htakes', hp⟩
      · cases h
    · next hrefused =>
      obtain ⟨hadvances, hlabels⟩ := ih h
      refine ⟨hadvances, fun {sure e p} => ?_⟩
      rw [hlabels]
      refine or_congr_right (and_congr_right fun _ => ?_)
      constructor
      · rintro ⟨f', l', hmem, hrest⟩
        exact ⟨f', l', List.mem_cons_of_mem _ hmem, hrest⟩
      · rintro ⟨f', l', hmem, htakes, hp⟩
        rcases List.mem_cons.1 hmem with hsame | hmem
        · cases hsame
          exact absurd htakes hrefused
        · exact ⟨f', l', hmem, htakes, hp⟩

/-! ## Checking a constraint -/

/-- A constraint's label counts where the constraint counts and its true sources do. -/
theorem universal_iff {c : Constraint} :
    (sure = true → (!c.isAssumed &&
        c.sources.all fun s => !k.isTrue s || k.isDecided true s) = true) ↔
      (sure = true → c.isAssumed = false) ∧
        ∀ s ∈ c.sources, k.HasLabel false s true → k.HasLabel sure s true := by
  cases sure with
  | false => simp
  | true =>
    simp only [forall_const, Bool.and_eq_true, Bool.not_eq_true', List.all_eq_true, Bool.or_eq_true,
      ← Bool.not_eq_true, isTrue_iff_hasLabel, isDecided_iff_hasLabel, imp_iff_not_or]

theorem mem_opened_iff {c : Constraint} :
    d ∈ (c.sources.filter fun s => !k.isTrue s).eraseDups ↔
      d ∈ c.sources ∧ ¬k.HasLabel false d true := by
  rw [mem_opened, ← isTrue_iff_hasLabel, Bool.not_eq_true]

private theorem ne_of_eraseDups {α : Type} [DecidableEq α] {xs rest : List α} {x y : α}
    (h : xs.eraseDups = x :: y :: rest) : y ≠ x := by
  cases xs with
  | nil => cases h
  | cons z zs =>
    rw [List.eraseDups_cons, List.cons.injEq] at h
    obtain ⟨rfl, h⟩ := h
    have hy : y ∈ (zs.filter fun w => !w == z).eraseDups := by
      rw [h]
      exact List.mem_cons_self
    simpa using (List.mem_filter.1 (List.mem_eraseDups.1 hy)).2

/-- What checking a constraint can do: nothing, when it is retired or forces nothing; or give the
label that it forces, at the levels where it does. -/
theorem check_eq_setLabel {i : Nat} {c : Constraint} (hc : k.constraints[i]? = some c)
    (h : k.check i queue = .ok s) :
    (s = (k, queue) ∧
        (k.retired.contains i = true ∨ ∀ sure d p, ¬c.Forces (k.HasLabel sure) d p)) ∨
      ∃ d l, k.setLabel d l queue = .ok s ∧ ∀ sure, (sure = true → l.universal = true) ↔
        (sure = true → c.isAssumed = false) ∧ c.Forces (k.HasLabel sure) d l.polarity := by
  rw [check, hc] at h
  simp only at h
  split at h
  · next hretired =>
    cases h
    exact .inl ⟨rfl, .inl hretired⟩
  · have huniversal : ∀ sure, _ := fun sure => @universal_iff k sure c
    generalize (!c.isAssumed && c.sources.all fun s => !k.isTrue s || k.isDecided true s) =
      universal at h huniversal
    have hopened : ∀ x, x ∈ (c.sources.filter fun x => !k.isTrue x).eraseDups ↔
        x ∈ c.sources ∧ ¬k.HasLabel false x true := fun x => mem_opened_iff
    have hdistinct : ∀ x y rest, (c.sources.filter fun x => !k.isTrue x).eraseDups =
        x :: y :: rest → y ≠ x := fun x y rest => ne_of_eraseDups
    generalize (c.sources.filter fun x => !k.isTrue x).eraseDups = opened at h hopened hdistinct
    -- a single open source is the one that can be forced
    have hothers : ∀ x, opened = [x] → x ∈ c.sources ∧ ∀ sure,
        ((∀ s ∈ c.sources, k.HasLabel false s true → k.HasLabel sure s true) ↔
          ∀ s ∈ c.sources, s ≠ x → k.HasLabel sure s true) := by
      intro x hx
      rw [hx] at hopened
      obtain ⟨hmem, hopen⟩ := (hopened x).1 List.mem_cons_self
      refine ⟨hmem, fun sure => forall₂_congr fun s hs => ⟨fun h hne => ?_, fun h htrue => ?_⟩⟩
      · refine h (by_contra fun hopen => hne ?_)
        exact List.mem_singleton.1 ((hopened s).2 ⟨hs, hopen⟩)
      · refine h ?_
        intro heq
        exact hopen (heq ▸ htrue)
    have hnothing : (∀ d p, ¬c.Forces (k.HasLabel false) d p) →
        ∀ sure d p, ¬c.Forces (k.HasLabel sure) d p :=
      fun hnone sure d p hforced => hnone d p (hforced.imp fun e q _ => HasLabel.weaken)
    split at h
    · cases h
    · next t ht =>
      refine .inr ⟨t, _, h, fun sure => (huniversal sure).trans (and_congr_right fun _ => ?_)⟩
      have hall : ∀ s ∈ c.sources, k.HasLabel false s true := fun s hs =>
        by_contra fun hopen => List.not_mem_nil ((hopened s).2 ⟨hs, hopen⟩)
      refine ⟨fun h => ⟨ht, fun s hs => h s hs (hall s hs)⟩, fun h s hs _ => h.2 s hs⟩
    · next x hnone =>
      obtain ⟨hx, hrest⟩ := hothers x rfl
      refine .inr ⟨x, _, h, fun sure => (huniversal sure).trans (and_congr_right fun _ => ?_)⟩
      rw [hrest]
      refine ⟨fun h => ⟨hx, fun t ht => ?_, h⟩, fun h => h.2.2⟩
      cases hnone.symm.trans ht
    · next x t ht =>
      obtain ⟨hx, hrest⟩ := hothers x rfl
      have hopen := ((hopened x).1 List.mem_cons_self).2
      split at h
      · next l hl =>
        have htarget : ∀ sure, k.HasLabel sure t false ↔
            l.polarity = false ∧ (sure = true → l.universal = true) := by
          intro sure
          simp [HasLabel, hl]
        split at h
        · next htrue =>
          cases h
          refine .inl ⟨rfl, .inr (hnothing fun d p hforced => ?_)⟩
          cases p with
          | true => exact hopen (hforced.2 x hx)
          | false =>
            have hfalse := ((htarget false).1 (hforced.2.1 t ht)).1
            cases htrue.symm.trans hfalse
        · next hfalse =>
          rw [Bool.not_eq_true] at hfalse
          refine .inr ⟨x, _, h, fun sure => ?_⟩
          have hforces : c.Forces (k.HasLabel sure) x false ↔
              (∀ s ∈ c.sources, s ≠ x → k.HasLabel sure s true) ∧
                (sure = true → l.universal = true) := by
            simp only [Constraint.Forces, ht, Option.some.injEq, forall_eq', htarget, hfalse, hx,
              true_and]
            exact and_comm
          rw [hforces, ← hrest, ← and_assoc, ← huniversal]
          simp only [Bool.and_eq_true]
          exact imp_and
      · next hnone =>
        cases h
        refine .inl ⟨rfl, .inr (hnothing fun d p hforced => ?_)⟩
        cases p with
        | true => exact hopen (hforced.2 x hx)
        | false =>
          obtain ⟨l, hl, -⟩ := hforced.2.1 t ht
          cases hnone.symm.trans hl
    · next opened _ _ hempty hempty' hsingle hsingle' =>
      cases h
      refine .inl ⟨rfl, .inr (hnothing fun d p hforced => ?_)⟩
      -- two sources are open, and at most one of them is the forced one
      rcases opened with _ | ⟨x, _ | ⟨y, rest⟩⟩
      · cases ht : c.target with
        | none => exact hempty rfl ht
        | some t => exact hempty' t rfl ht
      · cases ht : c.target with
        | none => exact hsingle x rfl ht
        | some t => exact hsingle' x t rfl ht
      · obtain ⟨hx, hopen⟩ := (hopened x).1 List.mem_cons_self
        obtain ⟨hy, hopen'⟩ := (hopened y).1 (List.mem_cons_of_mem _ List.mem_cons_self)
        cases p with
        | true => exact hopen (hforced.2 x hx)
        | false =>
          by_cases heq : x = d
          · exact hopen' (hforced.2.2 y hy (heq ▸ hdistinct x y rest rfl))
          · exact hopen (hforced.2.2 x hx heq)

theorem advances_check {i : Nat} (h : k.check i queue = .ok s) : Advances (k, queue) s := by
  cases hc : k.constraints[i]? with
  | none =>
    rw [check, hc] at h
    cases h
    exact .refl _
  | some c =>
    rcases check_eq_setLabel hc h with ⟨rfl, -⟩ | ⟨d, l, hset, -⟩
    · exact .refl _
    · exact advances_setLabel hset

/-- A retired constraint has its conclusion for good. -/
def Finished (k : Knowledge) (c : Constraint) : Prop :=
  (∃ t, c.target = some t ∧ k.HasLabel true t true) ∨ ∃ x ∈ c.sources, k.HasLabel true x false

theorem Finished.obeyed {c : Constraint} (h : k.Finished c) : c.Obeyed (k.HasLabel sure) := by
  intro d p hforced
  rcases h with ⟨t, ht, htrue⟩ | ⟨x, hx, hfalse⟩
  · cases p with
    | true =>
      cases ht.symm.trans hforced.1
      exact htrue.lower
    | false => cases htrue.unique (hforced.2.1 t ht)
  · cases p with
    | true => cases hfalse.unique (hforced.2 x hx)
    | false =>
      by_cases heq : x = d
      · exact heq ▸ hfalse.lower
      · cases hfalse.unique (hforced.2.2 x hx heq)

theorem obeyed_of_check {i : Nat} {c : Constraint} (hc : k.constraints[i]? = some c)
    (hretired : k.retired.contains i = true → k.Finished c)
    (hcounts : sure = true → c.isAssumed = false) (h : k.check i queue = .ok s) :
    c.Obeyed (s.1.HasLabel sure) := by
  rcases check_eq_setLabel hc h with ⟨rfl, hidle⟩ | ⟨d, l, hset, hlevel⟩
  · rcases hidle with hi | hnothing
    · exact (hretired hi).obeyed
    · exact fun d p hforced => absurd hforced (hnothing sure d p)
  · intro e q hforced
    have hd : s.1.HasLabel false d l.polarity := (hasLabel_setLabel hset).2 (.inr ⟨rfl, rfl, nofun⟩)
    obtain ⟨-, hforces⟩ := (hlevel false).1 nofun
    -- the label that was given is all that can be forced now
    have hone : ∀ x, s.1.HasLabel false x true → ¬s.1.HasLabel false x false :=
      fun x htrue hfalse => Bool.noConfusion (htrue.unique hfalse)
    obtain ⟨rfl, rfl⟩ := hforces.unique hone (hforced.imp fun x r _ => HasLabel.weaken) hd
    by_cases hasks : c.Asks e l.polarity
    · exact hforced.of_asks hasks
    · refine (hasLabel_setLabel hset).2 (.inr ⟨rfl, rfl, (hlevel sure).2 ⟨hcounts, ?_⟩⟩)
      refine hforced.imp fun x r hx hlabel => ?_
      rcases (hasLabel_setLabel hset).1 hlabel with hold | ⟨rfl, rfl, -⟩
      · exact hold
      · exact absurd hx hasks

end Knowledge

end LoopInvariant
