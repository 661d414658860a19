import LoopInvariant.Proofs.Deduction
import Mathlib.Data.List.Perm.Basic
/-!
# Deduction is complete

When nothing waits any more, the true labels are closed under all constraints and under `subset`
among the registered datapoints. So the datapoints inside true ones are a model.

While something waits, whatever could follow from a true label is accounted for: it has been drawn,
or the label or the constraint waits in the queue. The fuel suffices because a datapoint gets a new
label at most twice: each time something is worked out, a potential that counts what waits and the
labels still to come goes down.
-/

namespace LoopInvariant

theorem Datapoint.subset_refl (d : Datapoint) : d.subset d = true :=
  subset_iff.2 ⟨rfl, fun _ _ h => h⟩

theorem Datapoint.subset_trans {d e f : Datapoint} (hde : d.subset e = true)
    (hef : e.subset f = true) : d.subset f = true := by
  obtain ⟨hsite, hvalues⟩ := subset_iff.1 hde
  obtain ⟨hsite', hvalues'⟩ := subset_iff.1 hef
  exact subset_iff.2 ⟨hsite.trans hsite', fun x v hv => hvalues x v (hvalues' x v hv)⟩

def Pending.isLabel : Pending → Bool
  | labelled _ => true
  | check _ => false

@[simp] theorem Pending.isLabel_labelled (d : Datapoint) : (labelled d).isLabel = true := rfl

@[simp] theorem Pending.isLabel_check (id : Nat) : (check id).isLabel = false := rfl

namespace Knowledge

variable {k k' k'' : Knowledge} {d : Datapoint} {l : Label} {queue new : List Pending}

/-! ## What giving labels does -/

/-- How many labels can still change: a datapoint gets a label, which may become universal later. -/
def slack (k : Knowledge) : Nat :=
  k.datapoints.countP (fun d => (k.label? d).isNone) +
    k.datapoints.countP fun d => !(k.label? d).any (·.universal)

/-- All that giving labels to registered datapoints does: no label is lost or turned around, and new
true labels are announced. Each announcement is paid for. -/
structure Relabels (k k' : Knowledge) (new : List Pending) : Prop where
  constraints_eq : k'.constraints = k.constraints
  retired_eq : k'.retired = k.retired
  points_eq : k'.points = k.points
  keeps : ∀ d l, k.label? d = some l → ∃ l', k'.label? d = some l' ∧ l'.polarity = l.polarity
  registered : ∀ d l, k'.label? d = some l → (∃ l', k.label? d = some l') ∨ d ∈ k.datapoints
  announced : ∀ d, k'.isTrue d = true → k.isTrue d = true ∨ .labelled d ∈ new
  isLabel : ∀ p ∈ new, p.isLabel = true
  paid : new.length + k'.slack ≤ k.slack

theorem Relabels.refl (k : Knowledge) : k.Relabels k [] :=
  ⟨rfl, rfl, rfl, fun _ l hl => ⟨l, hl, rfl⟩, fun _ l hl => .inl ⟨l, hl⟩, fun _ h => .inl h, by simp,
    by simp⟩

theorem Relabels.datapoints_eq (h : k.Relabels k' new) : k'.datapoints = k.datapoints := by
  rw [datapoints, h.points_eq, datapoints]

theorem Relabels.trans {more : List Pending} (h : k.Relabels k' new) (h' : k'.Relabels k'' more) :
    k.Relabels k'' (new ++ more) where
  constraints_eq := h'.constraints_eq.trans h.constraints_eq
  retired_eq := h'.retired_eq.trans h.retired_eq
  points_eq := h'.points_eq.trans h.points_eq
  keeps := fun d l hl => by
    obtain ⟨l', hl', hpolarity⟩ := h.keeps d l hl
    obtain ⟨l'', hl'', hpolarity'⟩ := h'.keeps d l' hl'
    exact ⟨l'', hl'', hpolarity'.trans hpolarity⟩
  registered := fun d l hl => by
    rcases h'.registered d l hl with ⟨l', hl'⟩ | hmem
    · exact h.registered d l' hl'
    · exact .inr (h.datapoints_eq ▸ hmem)
  announced := fun d hd => by
    rcases h'.announced d hd with hd | hmem
    · exact (h.announced d hd).imp_right (List.mem_append_left _)
    · exact .inr (List.mem_append_right _ hmem)
  isLabel := List.forall_mem_append.2 ⟨h.isLabel, h'.isLabel⟩
  paid := by
    have hpaid := h.paid
    have hpaid' := h'.paid
    rw [List.length_append]
    omega

theorem Relabels.isTrue (h : k.Relabels k' new) (hd : k.isTrue d = true) : k'.isTrue d = true := by
  obtain ⟨l, hl, hpolarity⟩ := isTrue_iff.1 hd
  obtain ⟨l', hl', heq⟩ := h.keeps d l hl
  exact isTrue_iff.2 ⟨l', hl', heq.trans hpolarity⟩

theorem Relabels.isFalse (h : k.Relabels k' new) (hd : k.isFalse d = true) :
    k'.isFalse d = true := by
  obtain ⟨l, hl, hpolarity⟩ := isFalse_iff.1 hd
  obtain ⟨l', hl', heq⟩ := h.keeps d l hl
  exact isFalse_iff.2 ⟨l', hl', heq.trans hpolarity⟩

private theorem countP_lt {α : Type} {p q : α → Bool} {xs : List α} {x : α} (hx : x ∈ xs)
    (hpq : ∀ y, q y = true → p y = true) (hp : p x = true) (hq : q x = false) :
    xs.countP q < xs.countP p := by
  induction xs with
  | nil => cases hx
  | cons y ys ih =>
    have hrest : ys.countP q ≤ ys.countP p := List.countP_mono_left fun z _ => hpq z
    rw [List.countP_cons, List.countP_cons]
    rcases List.mem_cons.1 hx with rfl | hx
    · rw [hp, hq, if_pos rfl, if_neg Bool.false_ne_true]
      exact Nat.lt_succ_of_le hrest
    · have hhead : (if q y = true then 1 else 0) ≤ if p y = true then 1 else 0 := by
        split
        · next h => exact Nat.le_of_eq (if_pos (hpq y h)).symm
        · exact Nat.zero_le _
      exact Nat.add_lt_add_of_lt_of_le (ih hx) hhead

/-- A label that is new, or universal where the old one was not, takes away from what can change. -/
theorem slack_relabel (hd : d ∈ k.datapoints)
    (hold : ∀ old, k.label? d = some old → l.universal = true ∧ old.universal = false) :
    slack { k with labels := k.labels.insert d l } < k.slack := by
  have hself : label? { k with labels := k.labels.insert d l } d = some l := by
    rw [label?_relabel, if_pos rfl]
  have hnone : ∀ e, (label? { k with labels := k.labels.insert d l } e).isNone = true →
      (k.label? e).isNone = true := by
    intro e he
    rw [label?_relabel] at he
    split at he
    · cases he
    · exact he
  have huniversal : ∀ e,
      (!(label? { k with labels := k.labels.insert d l } e).any (·.universal)) = true →
        (!(k.label? e).any (·.universal)) = true := by
    intro e he
    rw [label?_relabel] at he
    split at he
    · next heq =>
      cases h : k.label? e with
      | none => rfl
      | some old => simp [(hold old (heq ▸ h)).2]
    · exact he
  cases h : k.label? d with
  | none =>
    refine Nat.add_lt_add_of_lt_of_le ?_ (List.countP_mono_left fun e _ => huniversal e)
    exact countP_lt hd hnone (by rw [h]; rfl) (by rw [hself]; rfl)
  | some old =>
    obtain ⟨hnew, hwas⟩ := hold old h
    refine Nat.add_lt_add_of_le_of_lt (List.countP_mono_left fun e _ => hnone e) ?_
    exact countP_lt hd huniversal (by simp [h, hwas]) (by simp [hself, hnew])

private theorem relabels_insert (hd : d ∈ k.datapoints)
    (hold : ∀ old, k.label? d = some old →
      old.polarity = l.polarity ∧ l.universal = true ∧ old.universal = false) :
    k.Relabels { k with labels := k.labels.insert d l } [.labelled d] where
  constraints_eq := rfl
  retired_eq := rfl
  points_eq := rfl
  keeps := fun e l' hl' => by
    rw [label?_relabel]
    split
    · next heq =>
      subst heq
      exact ⟨l, rfl, (hold l' hl').1.symm⟩
    · exact ⟨l', hl', rfl⟩
  registered := fun e l' hl' => by
    rw [label?_relabel] at hl'
    split at hl'
    · next heq => exact .inr (heq ▸ hd)
    · exact .inl ⟨l', hl'⟩
  announced := fun e he => by
    by_cases heq : e = d
    · exact .inr (List.mem_singleton.2 (congrArg _ heq))
    · rw [Knowledge.isTrue, label?_relabel, if_neg heq] at he
      exact .inl he
  isLabel := List.forall_mem_singleton.2 rfl
  paid := by
    rw [List.length_singleton, Nat.add_comm]
    exact slack_relabel hd fun old hlabel => (hold old hlabel).2

theorem relabels_setLabel (hd : d ∈ k.datapoints) {s : Knowledge × List Pending}
    (h : k.setLabel d l queue = .ok s) :
    ∃ new, s.2 = queue ++ new ∧ k.Relabels s.1 new ∧
      ∃ l', s.1.label? d = some l' ∧ l'.polarity = l.polarity := by
  have hself : label? { k with labels := k.labels.insert d l } d = some l := by
    rw [label?_relabel, if_pos rfl]
  rw [setLabel] at h
  cases hold : k.label? d with
  | none =>
    simp only [hold] at h
    cases h
    exact ⟨_, rfl, relabels_insert hd (by simp [hold]), l, hself, rfl⟩
  | some old =>
    simp only [hold] at h
    split at h
    · next hpolarity =>
      split at h
      · next huniversal =>
        cases h
        rw [Bool.and_eq_true, Bool.not_eq_true'] at huniversal
        refine ⟨_, rfl, relabels_insert hd (fun old' hold' => ?_), l, hself, rfl⟩
        cases hold.symm.trans hold'
        exact ⟨hpolarity, huniversal⟩
      · cases h
        exact ⟨[], (List.append_nil _).symm, .refl k, old, hold, hpolarity⟩
    · cases h

theorem relabels_spread {polarity universal : Bool} {es : List Datapoint}
    {s s' : Knowledge × List Pending} (hes : ∀ e ∈ es, e ∈ s.1.datapoints)
    (h : spread d polarity universal es s = .ok s') :
    ∃ new, s'.2 = s.2 ++ new ∧ s.1.Relabels s'.1 new ∧
      ∀ e ∈ es, ∃ l, s'.1.label? e = some l ∧ l.polarity = polarity := by
  induction es generalizing s with
  | nil =>
    cases h
    exact ⟨[], (List.append_nil _).symm, .refl _, by simp⟩
  | cons e es ih =>
    obtain ⟨he, hes⟩ := List.forall_mem_cons.1 hes
    rw [spread] at h
    split at h
    · next s₁ hset =>
      obtain ⟨new, hqueue, hrelabels, l, hl, hpolarity⟩ := relabels_setLabel he hset
      obtain ⟨more, hqueue', hrelabels', hall⟩ := ih (hrelabels.datapoints_eq ▸ hes) h
      refine ⟨new ++ more, ?_, hrelabels.trans hrelabels', List.forall_mem_cons.2 ⟨?_, hall⟩⟩
      · rw [hqueue', hqueue, List.append_assoc]
      · obtain ⟨l', hl', hpolarity'⟩ := hrelabels'.keeps e l hl
        exact ⟨l', hl', hpolarity'.trans hpolarity⟩
    · cases h

theorem relabels_inherit {ls : List (Datapoint × Label)} {s s' : Knowledge × List Pending}
    (hd : d ∈ s.1.datapoints) (h : inherit d ls s = .ok s') :
    ∃ new, s'.2 = s.2 ++ new ∧ s.1.Relabels s'.1 new ∧
      ∀ e l, (e, l) ∈ ls → l.polarity = d.subset e →
        ∃ l', s'.1.label? d = some l' ∧ l'.polarity = l.polarity := by
  induction ls generalizing s with
  | nil =>
    cases h
    exact ⟨[], (List.append_nil _).symm, .refl _, by simp⟩
  | cons x ls ih =>
    obtain ⟨e, l⟩ := x
    rw [inherit] at h
    split at h
    · split at h
      · next s₁ hset =>
        obtain ⟨new, hqueue, hrelabels, l₁, hl₁, hpolarity₁⟩ := relabels_setLabel hd hset
        obtain ⟨more, hqueue', hrelabels', hall⟩ := ih (hrelabels.datapoints_eq ▸ hd) h
        refine ⟨new ++ more, ?_, hrelabels.trans hrelabels', fun e' l' hmem hsub => ?_⟩
        · rw [hqueue', hqueue, List.append_assoc]
        · rcases List.mem_cons.1 hmem with heq | hmem
          · cases heq
            obtain ⟨l₂, hl₂, hpolarity₂⟩ := hrelabels'.keeps d l₁ hl₁
            exact ⟨l₂, hl₂, hpolarity₂.trans hpolarity₁⟩
          · exact hall e' l' hmem hsub
      · cases h
    · next hne =>
      obtain ⟨new, hqueue, hrelabels, hall⟩ := ih hd h
      refine ⟨new, hqueue, hrelabels, fun e' l' hmem hsub => ?_⟩
      rcases List.mem_cons.1 hmem with heq | hmem
      · cases heq
        exact absurd hsub hne
      · exact hall e' l' hmem hsub

/-! ## What is accounted for -/

/-- A constraint that forces no true label. -/
def Quiet (k : Knowledge) (c : Constraint) : Prop :=
  (∃ s ∈ c.sources, k.isTrue s = false) ∨ ∃ t, c.target = some t ∧ k.isTrue t = true

/-- A constraint that never forces a true label. -/
def Settled (k : Knowledge) (c : Constraint) : Prop :=
  (∃ s ∈ c.sources, k.isFalse s = true) ∨ ∃ t, c.target = some t ∧ k.isTrue t = true

theorem Settled.quiet {c : Constraint} (h : k.Settled c) : k.Quiet c := by
  refine h.imp_left fun ⟨s, hs, hfalse⟩ => ⟨s, hs, Bool.eq_false_iff.2 fun htrue => ?_⟩
  obtain ⟨l, hl, hpolarity⟩ := isFalse_iff.1 hfalse
  obtain ⟨l', hl', hpolarity'⟩ := isTrue_iff.1 htrue
  cases hl.symm.trans hl'
  cases hpolarity.symm.trans hpolarity'

/-- Whatever follows from a true label has been drawn among some datapoints, or waits. -/
structure Covered (k : Knowledge) (ds : List Datapoint) (queue : List Pending) : Prop where
  down : ∀ e, k.isTrue e = true →
    .labelled e ∈ queue ∨ ∀ d ∈ ds, d.subset e = true → k.isTrue d = true
  quiet : ∀ i c, k.constraints[i]? = some c →
    .check i ∈ queue ∨ (∃ s ∈ c.sources, k.isTrue s = true ∧ .labelled s ∈ queue) ∨ k.Quiet c

theorem Covered.mono {ds : List Datapoint} {more : List Pending} (h : k.Covered ds queue)
    (hsub : ∀ p ∈ queue, p ∈ more) : k.Covered ds more := by
  refine ⟨fun e he => (h.down e he).imp_left (hsub _), fun i c hc => ?_⟩
  rcases h.quiet i c hc with hcheck | ⟨s, hs, htrue, hmem⟩ | hquiet
  · exact .inl (hsub _ hcheck)
  · exact .inr (.inl ⟨s, hs, htrue, hsub _ hmem⟩)
  · exact .inr (.inr hquiet)

theorem Covered.relabels {ds : List Datapoint} (h : k.Covered ds queue) (hnew : k.Relabels k' new) :
    k'.Covered ds (queue ++ new) := by
  constructor
  · intro e he
    rcases hnew.announced e he with hold | hmem
    · rcases h.down e hold with hmem | hall
      · exact .inl (List.mem_append_left _ hmem)
      · exact .inr fun d hd hsub => hnew.isTrue (hall d hd hsub)
    · exact .inl (List.mem_append_right _ hmem)
  · intro i c hc
    rw [hnew.constraints_eq] at hc
    rcases h.quiet i c hc with hcheck | ⟨s, hs, htrue, hmem⟩ | ⟨s, hs, hopen⟩ | ⟨t, ht, htrue⟩
    · exact .inl (List.mem_append_left _ hcheck)
    · exact .inr (.inl ⟨s, hs, hnew.isTrue htrue, List.mem_append_left _ hmem⟩)
    · -- the source is still open, or it was announced
      by_cases htrue : k'.isTrue s = true
      · rcases hnew.announced s htrue with hold | hmem
        · cases hopen.symm.trans hold
        · exact .inr (.inl ⟨s, hs, htrue, List.mem_append_right _ hmem⟩)
      · exact .inr (.inr (.inl ⟨s, hs, by simpa using htrue⟩))
    · exact .inr (.inr (.inr ⟨t, ht, hnew.isTrue htrue⟩))

theorem Covered.of_check {ds : List Datapoint} {id : Nat} (h : k.Covered ds (.check id :: queue))
    (hquiet : ∀ c, k.constraints[id]? = some c → k.Quiet c) : k.Covered ds queue := by
  constructor
  · intro e he
    exact (h.down e he).imp_left fun hmem => (List.mem_cons.1 hmem).resolve_left (by simp)
  · intro i c hc
    rcases h.quiet i c hc with hcheck | ⟨s, hs, htrue, hmem⟩ | hq
    · rcases List.mem_cons.1 hcheck with heq | hcheck
      · cases heq
        exact .inr (.inr (hquiet c hc))
      · exact .inl hcheck
    · exact .inr (.inl ⟨s, hs, htrue, (List.mem_cons.1 hmem).resolve_left (by simp)⟩)
    · exact .inr (.inr hq)

theorem Covered.of_labelled {ds : List Datapoint} (h : k.Covered ds (.labelled d :: queue))
    (hdown : k.isTrue d = true → ∀ e ∈ ds, e.subset d = true → k.isTrue e = true)
    (hwatched : k.isTrue d = true → ∀ i c, k.constraints[i]? = some c → d ∈ c.sources →
      .check i ∈ queue) : k.Covered ds queue := by
  constructor
  · intro e he
    rcases h.down e he with hmem | hall
    · rcases List.mem_cons.1 hmem with heq | hmem
      · cases heq
        exact .inr (hdown he)
      · exact .inl hmem
    · exact .inr hall
  · intro i c hc
    rcases h.quiet i c hc with hcheck | ⟨s, hs, htrue, hmem⟩ | hq
    · exact .inl ((List.mem_cons.1 hcheck).resolve_left (by simp))
    · rcases List.mem_cons.1 hmem with heq | hmem
      · cases heq
        exact .inl (hwatched htrue i c hc hs)
      · exact .inr (.inl ⟨s, hs, htrue, hmem⟩)
    · exact .inr (.inr hq)

/-- What labels, retired constraints and the queue have to do with each other: labels are for
registered datapoints, retired constraints stay quiet, and what waits leaves room for the labels
still to come. -/
structure Bookkept (k : Knowledge) (queue : List Pending) : Prop where
  labelled_mem : ∀ d l, k.label? d = some l → d ∈ k.datapoints
  retired_lt : ∀ i, k.retired.contains i = true → i < k.size
  settled : ∀ i c, k.retired.contains i = true → k.constraints[i]? = some c → k.Settled c
  room_left : queue.countP Pending.isLabel + k.slack ≤ 2 * k.datapoints.length

/-- What holds between any two steps of deduction. -/
structure Tracked (k : Knowledge) (queue : List Pending) : Prop extends k.Bookkept queue where
  covered : k.Covered k.datapoints queue

theorem Relabels.countP (h : k.Relabels k' new) : new.countP Pending.isLabel = new.length :=
  List.countP_eq_length.2 h.isLabel

theorem Relabels.settled (h : k.Relabels k' new) {c : Constraint} (hc : k.Settled c) :
    k'.Settled c := by
  rcases hc with ⟨s, hs, hfalse⟩ | ⟨t, ht, htrue⟩
  · exact .inl ⟨s, hs, h.isFalse hfalse⟩
  · exact .inr ⟨t, ht, h.isTrue htrue⟩

theorem Bookkept.relabels (h : k.Bookkept queue) (hnew : k.Relabels k' new) :
    k'.Bookkept (queue ++ new) where
  labelled_mem := fun d l hl => by
    rw [hnew.datapoints_eq]
    rcases hnew.registered d l hl with ⟨l', hl'⟩ | hmem
    · exact h.labelled_mem d l' hl'
    · exact hmem
  retired_lt := fun i hi => by
    rw [hnew.retired_eq] at hi
    rw [size, hnew.constraints_eq]
    exact h.retired_lt i hi
  settled := fun i c hi hc => by
    rw [hnew.retired_eq] at hi
    rw [hnew.constraints_eq] at hc
    exact hnew.settled (h.settled i c hi hc)
  room_left := by
    have hroom := h.room_left
    have hpaid := hnew.paid
    rw [List.countP_append, hnew.countP, hnew.datapoints_eq]
    omega

theorem Tracked.relabels (h : k.Tracked queue) (hnew : k.Relabels k' new) :
    k'.Tracked (queue ++ new) :=
  ⟨h.toBookkept.relabels hnew, hnew.datapoints_eq ▸ h.covered.relabels hnew⟩

theorem Tracked.requeue {more : List Pending} (h : k.Tracked queue)
    (hcovered : k.Covered k.datapoints more)
    (hcount : more.countP Pending.isLabel ≤ queue.countP Pending.isLabel) : k.Tracked more :=
  ⟨⟨h.labelled_mem, h.retired_lt, h.settled,
    Nat.le_trans (Nat.add_le_add_right hcount _) h.room_left⟩, hcovered⟩

end Knowledge

end LoopInvariant
