import LoopInvariant.Proofs.Labelling
import Mathlib.Order.WellFounded
/-!
# Labels have reasons

Every label is justified by its reason: the labels it is drawn from are there, and are universal if
it is. No label is drawn from itself, however far back. For a label is drawn from labels that are
there before it, and when a universal label replaces one that is not, it is drawn from universal
labels, none of which was drawn from the one replaced.
-/

namespace LoopInvariant

/-- The datapoints whose labels a label is drawn from. A constraint that makes a source false does so
for its other sources and its target. -/
inductive Label.Needs (cs : Array Constraint) (d : Datapoint) (l : Label) : Datapoint → Prop where
  | subsumed {e : Datapoint} (hreason : l.reason = .subsumed e) : Needs cs d l e
  | source {id : Nat} {c : Constraint} {s : Datapoint} (hreason : l.reason = .constraint id)
      (hc : cs[id]? = some c) (hs : s ∈ c.sources) (hother : l.polarity = false → s ≠ d) :
      Needs cs d l s
  | target {id : Nat} {c : Constraint} {t : Datapoint} (hreason : l.reason = .constraint id)
      (hc : cs[id]? = some c) (hfalse : l.polarity = false) (ht : c.target = some t) :
      Needs cs d l t

namespace Knowledge

variable {k k' : Knowledge} {sure : Bool} {d e : Datapoint} {p : Bool} {l : Label}
  {queue : List Pending} {s : Knowledge × List Pending}

def Premise (k : Knowledge) (e d : Datapoint) : Prop :=
  ∃ l, k.label? d = some l ∧ l.Needs k.constraints d e

/-- A label for a datapoint that its reason gives. -/
inductive Justified (k : Knowledge) (d : Datapoint) (l : Label) : Prop where
  | subsumed {e : Datapoint} (hreason : l.reason = .subsumed e)
      (hinherits : d.inherits l.polarity e = true) (hlabel : k.HasLabel l.universal e l.polarity)
  | forced {id : Nat} {c : Constraint} (hreason : l.reason = .constraint id)
      (hc : k.constraints[id]? = some c) (hforces : c.Forces (k.HasLabel l.universal) d l.polarity)

theorem HasLabel.relax {universal : Bool} (h : k.HasLabel universal d p)
    (hsure : sure = true → universal = true) : k.HasLabel sure d p := by
  obtain ⟨l, hl, hp, huniversal⟩ := h
  exact ⟨l, hl, hp, fun h => huniversal (hsure h)⟩

theorem Justified.imp (h : k.Justified d l)
    (hlabels : ∀ {sure e p}, k.HasLabel sure e p → k'.HasLabel sure e p)
    (hconstraints : ∀ {i : Nat} {c}, k.constraints[i]? = some c → k'.constraints[i]? = some c) :
    k'.Justified d l := by
  cases h with
  | subsumed hreason hinherits hlabel => exact .subsumed hreason hinherits (hlabels hlabel)
  | forced hreason hc hforces =>
    exact .forced hreason (hconstraints hc) (hforces.imp fun e q _ => hlabels)

theorem Justified.hasLabel (h : k.Justified d l) (he : l.Needs k.constraints d e) :
    ∃ p, k.HasLabel l.universal e p ∧ (l.polarity = true → p = true) := by
  cases h with
  | subsumed hreason _ hlabel =>
    cases he with
    | subsumed hreason' =>
      cases hreason.symm.trans hreason'
      exact ⟨_, hlabel, id⟩
    | source hreason' => cases hreason.symm.trans hreason'
    | target hreason' => cases hreason.symm.trans hreason'
  | forced hreason hc hforces =>
    cases he with
    | subsumed hreason' => cases hreason.symm.trans hreason'
    | source hreason' hc' hs hother =>
      cases hreason.symm.trans hreason'
      cases hc.symm.trans hc'
      cases hpolarity : l.polarity with
      | true =>
        rw [hpolarity] at hforces
        exact ⟨true, hforces.2 _ hs, fun _ => rfl⟩
      | false =>
        rw [hpolarity] at hforces
        exact ⟨true, hforces.2.2 _ hs (hother hpolarity), fun _ => rfl⟩
    | target hreason' hc' hfalse ht =>
      cases hreason.symm.trans hreason'
      cases hc.symm.trans hc'
      rw [hfalse] at hforces
      refine ⟨false, hforces.2.1 _ ht, fun htrue => ?_⟩
      rw [hfalse] at htrue
      cases htrue

/-- Every label is justified, and none is drawn from itself. -/
structure Reasoned (k : Knowledge) : Prop where
  justified : ∀ d l, k.label? d = some l → k.Justified d l
  wellFounded : WellFounded k.Premise

theorem Reasoned.congr (h : k.Reasoned) (hconstraints : k'.constraints = k.constraints)
    (hlabels : k'.labels = k.labels) : k'.Reasoned := by
  have hlabel : k'.label? = k.label? := by
    funext d
    rw [label?, label?, hlabels]
  refine ⟨fun d l hl => ?_, ?_⟩
  · refine (h.justified d l (hlabel ▸ hl)).imp (fun he => ?_) fun hc => hconstraints ▸ hc
    rwa [HasLabel, hlabel]
  · have hpremise : k'.Premise = k.Premise := by
      funext e d
      rw [Premise, Premise, hlabel, hconstraints]
    exact hpremise ▸ h.wellFounded

theorem Reasoned.not_leads (h : k.Reasoned) (hpremise : k.Premise e d) :
    ¬Relation.ReflTransGen k.Premise d e := by
  intro hleads
  have hcycle : Relation.TransGen k.Premise d d := .tail' hleads hpremise
  exact h.wellFounded.transGen.irrefl.irrefl d hcycle

theorem Reasoned.hasLabel_premise (h : k.Reasoned) (hd : k.HasLabel sure d p)
    (hpremise : k.Premise e d) : ∃ q, k.HasLabel sure e q ∧ (p = true → q = true) := by
  obtain ⟨l, hl, rfl, hsure⟩ := hd
  obtain ⟨l', hl', hneeds⟩ := hpremise
  cases hl.symm.trans hl'
  obtain ⟨q, hq, htrue⟩ := (h.justified d l hl).hasLabel hneeds
  exact ⟨q, hq.relax hsure, htrue⟩

theorem Reasoned.true_of_leads (h : k.Reasoned) (hd : k.HasLabel false d true)
    (hleads : Relation.ReflTransGen k.Premise e d) : k.HasLabel false e true := by
  induction hleads using Relation.ReflTransGen.head_induction_on with
  | refl => exact hd
  | head hpremise _ ih =>
    obtain ⟨q, hq, htrue⟩ := h.hasLabel_premise ih hpremise
    exact htrue rfl ▸ hq

/-! ## New labels -/

theorem premise_relabel {x : Datapoint}
    (h : Premise { k with labels := k.labels.insert d l } e x) :
    (x = d ∧ l.Needs k.constraints d e) ∨ x ≠ d ∧ k.Premise e x := by
  obtain ⟨l', hl', hneeds⟩ := h
  rw [label?_relabel] at hl'
  split at hl'
  · next heq =>
    cases hl'
    exact .inl ⟨heq, heq ▸ hneeds⟩
  · next hne => exact .inr ⟨hne, l', hl', hneeds⟩

/-- A label is drawn from labels at a level where the datapoint had none, so from none that is drawn
from the datapoint's own. -/
theorem Reasoned.wellFounded_relabel (h : k.Reasoned) (hl : k.Justified d l)
    (hsure : sure = true → l.universal = true) (hnew : ∀ p, ¬k.HasLabel sure d p) :
    WellFounded (Premise { k with labels := k.labels.insert d l }) := by
  -- nothing at that level is drawn from the datapoint
  have hold : ∀ x p, k.HasLabel sure x p →
      Acc (Premise { k with labels := k.labels.insert d l }) x := by
    intro x
    induction h.wellFounded.apply x with
    | intro x _ ih =>
      intro p hx
      refine ⟨x, fun e he => ?_⟩
      rcases premise_relabel he with ⟨rfl, -⟩ | ⟨-, he⟩
      · exact absurd hx (hnew p)
      · obtain ⟨q, hq, -⟩ := h.hasLabel_premise hx he
        exact ih e he q hq
  have hd : Acc (Premise { k with labels := k.labels.insert d l }) d := by
    refine ⟨d, fun e he => ?_⟩
    rcases premise_relabel he with ⟨-, hneeds⟩ | ⟨hne, -⟩
    · obtain ⟨q, hq, -⟩ := hl.hasLabel hneeds
      exact hold e q (hq.relax hsure)
    · exact absurd rfl hne
  refine ⟨fun x => ?_⟩
  induction h.wellFounded.apply x with
  | intro x _ ih =>
    refine ⟨x, fun e he => ?_⟩
    rcases premise_relabel he with ⟨rfl, -⟩ | ⟨-, hpremise⟩
    · exact hd.inv he
    · exact ih e hpremise

/-- A justified label leaves every label with a reason. -/
theorem Reasoned.setLabel (h : k.Reasoned) (hl : k.Justified d l)
    (hset : k.setLabel d l queue = .ok s) : s.1.Reasoned := by
  have hadvances := advances_setLabel hset
  rcases setLabel_cases k d l queue with ⟨sure, hsure, hnew, heq⟩ | heq | ⟨t, f, -, -, -, heq⟩
  · cases hset.symm.trans heq
    refine ⟨fun x l' hl' => ?_, h.wellFounded_relabel hl hsure hnew⟩
    rw [label?_relabel] at hl'
    split at hl'
    · next hx =>
      cases hl'
      exact hx ▸ hl.imp hadvances.keeps id
    · exact (h.justified x l' hl').imp hadvances.keeps id
  · cases hset.symm.trans heq
    exact h
  · cases hset.symm.trans heq

/-! ## New constraints -/

theorem getElem?_push_of_some {cs : Array Constraint} {i : Nat} {c c' : Constraint}
    (h : cs[i]? = some c) : (cs.push c')[i]? = some c := by
  obtain ⟨hlt, rfl⟩ := Array.getElem?_eq_some_iff.1 h
  exact Array.getElem?_push_lt hlt

/-- The reasons are the same when a constraint is added, because they name old constraints. -/
theorem Reasoned.push (h : k.Reasoned) (c : Constraint) :
    Reasoned { k with constraints := k.constraints.push c } := by
  refine ⟨fun d l hl => (h.justified d l hl).imp id getElem?_push_of_some, ?_⟩
  refine Subrelation.wf (fun {e d} hpremise => ?_) h.wellFounded
  obtain ⟨l, hl, hneeds⟩ := hpremise
  have hold : ∀ {id c'}, l.reason = .constraint id → (k.constraints.push c)[id]? = some c' →
      k.constraints[id]? = some c' := by
    intro id c' hreason hc'
    cases h.justified d l hl with
    | subsumed hreason' => cases hreason.symm.trans hreason'
    | forced hreason' hc =>
      cases hreason.symm.trans hreason'
      exact hc.trans ((getElem?_push_of_some hc).symm.trans hc')
  refine ⟨l, hl, ?_⟩
  cases hneeds with
  | subsumed hreason => exact .subsumed hreason
  | source hreason hc' hs hother => exact .source hreason (hold hreason hc') hs hother
  | target hreason hc' hfalse ht => exact .target hreason (hold hreason hc') hfalse ht

end Knowledge

end LoopInvariant
