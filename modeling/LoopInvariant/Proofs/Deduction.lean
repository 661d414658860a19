import LoopInvariant.Knowledge.Deduction
import LoopInvariant.Proofs.Except
import LoopInvariant.Proofs.PointIndex
/-!
# Deduction is sound

A set of datapoints that is closed under `subset` and meets all constraints is a model. Every label
is right in every model, so deduction never fails while there is one: a contradiction shows that
there is none.
-/

namespace LoopInvariant

/-- A set of datapoints that holds with a datapoint everything inside it. -/
def Datapoint.Closed (T : Datapoint → Prop) : Prop := ∀ d e, T e → d.subset e = true → T d

/-- A set that holds the target with all sources. Without a target it does not hold them all. -/
def Constraint.Meets (c : Constraint) (T : Datapoint → Prop) : Prop :=
  (∀ s ∈ c.sources, T s) → ∃ t, c.target = some t ∧ T t

namespace Knowledge

variable {k : Knowledge} {T : Datapoint → Prop} {d : Datapoint} {l : Label}

/-- A model of the constraints in which every label is right. -/
structure Respects (k : Knowledge) (T : Datapoint → Prop) : Prop where
  closed : Datapoint.Closed T
  meets : ∀ c ∈ k.constraints, c.Meets T
  labels : ∀ d l, k.label? d = some l → (l.polarity = true ↔ T d)

theorem isTrue_iff : k.isTrue d = true ↔ ∃ l, k.label? d = some l ∧ l.polarity = true := by
  rw [isTrue, Option.any_eq_true]

theorem isFalse_iff : k.isFalse d = true ↔ ∃ l, k.label? d = some l ∧ l.polarity = false := by
  rw [isFalse, Option.any_eq_true]
  simp

theorem Respects.of_isTrue (h : k.Respects T) (hd : k.isTrue d = true) : T d := by
  obtain ⟨l, hl, hpolarity⟩ := isTrue_iff.1 hd
  exact (h.labels d l hl).1 hpolarity

theorem label?_relabel (d e : Datapoint) (l : Label) :
    label? { k with labels := k.labels.insert d l } e = if e = d then some l else k.label? e :=
  SortedMap.get?_insert ..

theorem Respects.relabel (h : k.Respects T) (hl : l.polarity = true ↔ T d) :
    Respects { k with labels := k.labels.insert d l } T := by
  refine ⟨h.closed, h.meets, fun e l' he => ?_⟩
  rw [label?_relabel] at he
  split at he
  · next heq =>
    cases he
    rwa [heq]
  · exact h.labels e l' he

theorem Respects.setLabel (h : k.Respects T) (hl : l.polarity = true ↔ T d)
    (queue : List Pending) : ∃ s, k.setLabel d l queue = .ok s ∧ s.1.Respects T := by
  rw [Knowledge.setLabel]
  cases hold : k.label? d with
  | none => exact ⟨_, rfl, h.relabel hl⟩
  | some old =>
    have hpolarity : old.polarity = l.polarity :=
      Bool.eq_iff_iff.2 ((h.labels d old hold).trans hl.symm)
    simp only [hpolarity, if_true]
    split
    · exact ⟨_, rfl, h.relabel hl⟩
    · exact ⟨_, rfl, h⟩

theorem Respects.spread {polarity universal : Bool} {es : List Datapoint}
    {s : Knowledge × List Pending} (h : s.1.Respects T)
    (hes : ∀ e ∈ es, polarity = true ↔ T e) :
    ∃ s', Knowledge.spread d polarity universal es s = .ok s' ∧ s'.1.Respects T := by
  induction es generalizing s with
  | nil => exact ⟨s, rfl, h⟩
  | cons e es ih =>
    obtain ⟨he, hes⟩ := List.forall_mem_cons.1 hes
    obtain ⟨s', hset, h'⟩ := h.setLabel (l := ⟨polarity, universal, .subsumed d⟩) he s.2
    rw [Knowledge.spread, hset]
    exact ih h' hes

theorem Respects.inherit {ls : List (Datapoint × Label)} {s : Knowledge × List Pending}
    (h : s.1.Respects T)
    (hls : ∀ e l, (e, l) ∈ ls → l.polarity = d.subset e → (l.polarity = true ↔ T d)) :
    ∃ s', Knowledge.inherit d ls s = .ok s' ∧ s'.1.Respects T := by
  induction ls generalizing s with
  | nil => exact ⟨s, rfl, h⟩
  | cons x ls ih =>
    obtain ⟨e, l⟩ := x
    have hrest : ∀ e l, (e, l) ∈ ls → l.polarity = d.subset e → (l.polarity = true ↔ T d) :=
      fun e l hmem => hls e l (List.mem_cons_of_mem _ hmem)
    rw [Knowledge.inherit]
    split
    · next hpolarity =>
      have hl := hls e l List.mem_cons_self hpolarity
      obtain ⟨s', hset, h'⟩ := h.setLabel (l := ⟨l.polarity, l.universal, .subsumed e⟩) hl s.2
      rw [hset]
      exact ih h' hrest
    · exact ih h hrest

/-! ## Constraints -/

theorem mem_opened {c : Constraint} {s : Datapoint} :
    s ∈ (c.sources.filter fun s => !k.isTrue s).eraseDups ↔ s ∈ c.sources ∧ k.isTrue s = false := by
  simp

theorem Respects.check (h : k.Respects T) (id : Nat) (queue : List Pending) :
    ∃ s, k.check id queue = .ok s ∧ s.1.Respects T := by
  rw [Knowledge.check]
  cases hc : k.constraints[id]? with
  | none => exact ⟨_, rfl, h⟩
  | some c =>
    simp only
    split
    · exact ⟨_, rfl, h⟩
    · -- in the model all sources lie inside with the open ones
      have hmeets : (∀ s ∈ (c.sources.filter fun s => !k.isTrue s).eraseDups, T s) →
          ∃ t, c.target = some t ∧ T t := by
        intro hopen
        refine h.meets c (Array.mem_of_getElem? hc) fun s hs => ?_
        by_cases htrue : k.isTrue s = true
        · exact h.of_isTrue htrue
        · exact hopen s (mem_opened.2 ⟨hs, by simpa using htrue⟩)
      generalize (c.sources.filter fun s => !k.isTrue s).eraseDups = opened at hmeets
      split
      · next hnone =>
        obtain ⟨t, ht, -⟩ := hmeets (by simp)
        cases hnone.symm.trans ht
      · next t ht =>
        obtain ⟨t', ht', hT⟩ := hmeets (by simp)
        cases ht.symm.trans ht'
        exact h.setLabel (iff_of_true rfl hT) queue
      · next s hnone =>
        refine h.setLabel (iff_of_false Bool.false_ne_true fun hT => ?_) queue
        obtain ⟨t, ht, -⟩ := hmeets (List.forall_mem_singleton.2 hT)
        cases hnone.symm.trans ht
      · next s t ht =>
        split
        · next l hl =>
          split
          · exact ⟨_, rfl, h⟩
          · next hfalse =>
            refine h.setLabel (iff_of_false Bool.false_ne_true fun hT => ?_) queue
            obtain ⟨t', ht', hT'⟩ := hmeets (List.forall_mem_singleton.2 hT)
            cases ht.symm.trans ht'
            exact hfalse ((h.labels t l hl).2 hT')
        · exact ⟨_, rfl, h⟩
      · exact ⟨_, rfl, h⟩

theorem mem_subsetsOf_iff {e : Datapoint} :
    e ∈ k.subsetsOf d ↔ d ∈ k.datapoints ∧ e ∈ k.datapoints ∧ e.subset d = true ∧ e ≠ d :=
  PointIndex.mem_subsetsOf_iff

theorem mem_supersetsOf_iff {e : Datapoint} :
    e ∈ k.supersetsOf d ↔ d ∈ k.datapoints ∧ e ∈ k.datapoints ∧ d.subset e = true ∧ e ≠ d :=
  PointIndex.mem_supersetsOf_iff

theorem mem_subsetsOf {e : Datapoint} (h : e ∈ k.subsetsOf d) : e.subset d = true :=
  (mem_subsetsOf_iff.1 h).2.2.1

theorem mem_supersetsOf {e : Datapoint} (h : e ∈ k.supersetsOf d) : d.subset e = true :=
  (mem_supersetsOf_iff.1 h).2.2.1

theorem Respects.workOut (h : k.Respects T) (p : Pending) (queue : List Pending) :
    ∃ s, k.workOut p queue = .ok s ∧ s.1.Respects T := by
  cases p with
  | check id => exact h.check id queue
  | labelled d =>
    rw [Knowledge.workOut]
    cases hl : k.label? d with
    | none => exact ⟨_, rfl, h⟩
    | some l =>
      have hd := h.labels d l hl
      cases hpolarity : l.polarity with
      | true =>
        simp only [hpolarity, if_true]
        refine Respects.spread (s := (k, _)) h fun e he => iff_of_true rfl ?_
        exact h.closed e d (hd.1 hpolarity) (mem_subsetsOf he)
      | false =>
        simp only [hpolarity, Bool.false_eq_true, if_false]
        refine Respects.spread (s := (k, _)) h fun e he => iff_of_false Bool.false_ne_true ?_
        intro hT
        have hTd := hd.2 (h.closed d e hT (mem_supersetsOf he))
        rw [hpolarity] at hTd
        cases hTd

theorem Respects.propagate (h : k.Respects T) (fuel : Nat) (queue : List Pending) :
    ∃ k', Knowledge.propagate fuel k queue = .ok k' ∧ k'.Respects T := by
  induction fuel generalizing k queue with
  | zero => exact ⟨k, rfl, h⟩
  | succ fuel ih =>
    cases queue with
    | nil => exact ⟨k, rfl, h⟩
    | cons p queue =>
      obtain ⟨s, hstep, h'⟩ := h.workOut p queue
      rw [Knowledge.propagate, hstep]
      exact ih h' s.2

/-! ## New datapoints and constraints -/

theorem mem_datapoints_insert {e : Datapoint} :
    e ∈ datapoints { k with points := k.points.insert d } ↔ e = d ∨ e ∈ k.datapoints :=
  PointIndex.mem_toList_insert

/-- The labelled datapoints around and inside a new one, with their labels. -/
def relatives (k : Knowledge) (d : Datapoint) : List (Datapoint × Label) :=
  let next := { k with points := k.points.insert d }
  (next.supersetsOf d ++ next.subsetsOf d).filterMap fun e => (k.label? e).map fun l => (e, l)

def commonParts (k : Knowledge) (d : Datapoint) : List Datapoint :=
  (k.datapoints.filter fun e => e.site = d.site).filterMap fun e =>
    if d.subset e || e.subset d then none else d.meet? e

theorem register_succ (fuel : Nat) (d : Datapoint) (s : Knowledge × List Pending) :
    register (fuel + 1) d s =
      if s.1.points.contains d then .ok s
      else inherit d (s.1.relatives d) ({ s.1 with points := s.1.points.insert d }, s.2) >>= fun s' =>
        (s.1.commonParts d).reverse.foldlM (fun s m => register fuel m s) s' := by
  rw [register]
  split
  · rfl
  · simp only [relatives, commonParts]
    split
    · next heq => rw [heq]; rfl
    · next heq => rw [heq]; rfl

theorem mem_relatives {e : Datapoint} :
    (e, l) ∈ k.relatives d ↔ k.label? e = some l ∧ e ∈ k.datapoints ∧ e ≠ d ∧
      (d.subset e = true ∨ e.subset d = true) := by
  have hmem : ∀ x, x ∈ datapoints { k with points := k.points.insert d } ∧ x ≠ d ↔
      x ∈ k.datapoints ∧ x ≠ d := by
    intro x
    rw [mem_datapoints_insert]
    exact and_congr_left fun hne => or_iff_right hne
  simp only [relatives, List.mem_filterMap, List.mem_append, mem_supersetsOf_iff, mem_subsetsOf_iff,
    Option.map_eq_some_iff, Prod.mk.injEq]
  constructor
  · rintro ⟨x, hx, l', hl, rfl, rfl⟩
    rcases hx with ⟨-, hx, hsub, hne⟩ | ⟨-, hx, hsub, hne⟩
    · exact ⟨hl, ((hmem x).1 ⟨hx, hne⟩).1, hne, .inl hsub⟩
    · exact ⟨hl, ((hmem x).1 ⟨hx, hne⟩).1, hne, .inr hsub⟩
  · rintro ⟨hl, he, hne, hsub⟩
    have hd : d ∈ datapoints { k with points := k.points.insert d } :=
      mem_datapoints_insert.2 (.inl rfl)
    have he := ((hmem e).2 ⟨he, hne⟩).1
    refine ⟨e, ?_, l, hl, rfl, rfl⟩
    rcases hsub with hsub | hsub
    · exact .inl ⟨hd, he, hsub, hne⟩
    · exact .inr ⟨hd, he, hsub, hne⟩

theorem Respects.register (fuel : Nat) (d : Datapoint) {s : Knowledge × List Pending}
    (h : s.1.Respects T) :
    ∃ s', Knowledge.register fuel d s = .ok s' ∧ s'.1.Respects T := by
  induction fuel generalizing d s with
  | zero => exact ⟨s, rfl, h⟩
  | succ fuel ih =>
    rw [register_succ]
    split
    · exact ⟨s, rfl, h⟩
    · have hinherit : ∃ s', Knowledge.inherit d (s.1.relatives d)
          ({ s.1 with points := s.1.points.insert d }, s.2) = .ok s' ∧ s'.1.Respects T := by
        refine Respects.inherit ⟨h.closed, h.meets, h.labels⟩ fun e l hmem hpolarity => ?_
        obtain ⟨hl, -, -, hrelated⟩ := mem_relatives.1 hmem
        rw [h.labels e l hl]
        cases hsub : d.subset e with
        | true =>
          have hT : T e := (h.labels e l hl).1 (hpolarity.trans hsub)
          exact iff_of_true hT (h.closed d e hT hsub)
        | false =>
          have hsub' : e.subset d = true := hrelated.resolve_left (by simp [hsub])
          have hT : ¬T e := fun hT => by
            have hfalse := hpolarity.trans hsub
            rw [(h.labels e l hl).2 hT] at hfalse
            cases hfalse
          exact iff_of_false hT fun hTd => hT (h.closed e d hTd hsub')
      obtain ⟨s', hs', h'⟩ := hinherit
      rw [hs']
      exact exists_foldlM_eq_ok (fun s m hs => ih m hs) _ h'

theorem Respects.registerAll (ds : List Datapoint) {s : Knowledge × List Pending}
    (h : s.1.Respects T) :
    ∃ s', Knowledge.registerAll ds s = .ok s' ∧ s'.1.Respects T := by
  induction ds generalizing s with
  | nil => exact ⟨s, rfl, h⟩
  | cons d ds ih =>
    obtain ⟨s', hs', h'⟩ := h.register (s.1.registerFuel d) d
    rw [Knowledge.registerAll, hs']
    exact ih h'

/-- A constraint that a model meets is added without a contradiction. -/
theorem Respects.insert (h : k.Respects T) {c : Constraint} (hc : c.Meets T) :
    ∃ added k', k.insert c = .ok (added, k') ∧ k'.Respects T := by
  rw [Knowledge.insert]
  split
  · exact ⟨_, _, rfl, h⟩
  · have hpush : Respects { k with constraints := k.constraints.push c } T := by
      refine ⟨h.closed, fun c' hc' => ?_, h.labels⟩
      rcases Array.mem_push.1 hc' with hmem | rfl
      · exact h.meets c' hmem
      · exact hc
    obtain ⟨s, hs, h'⟩ := Respects.registerAll (s := (_, [])) c.datapoints hpush
    rw [hs]
    obtain ⟨k', hk', h''⟩ := h'.propagate (s.1.propagateFuel (s.2 ++ [.check k.size]))
      (s.2 ++ [.check k.size])
    simp only [hk']
    exact ⟨true, k', rfl, h''⟩

theorem Respects.insertAll {cs : List Constraint} (h : k.Respects T) (hcs : ∀ c ∈ cs, c.Meets T) :
    ∃ n k', k.insertAll cs = (.ok n, k') ∧ k'.Respects T := by
  induction cs generalizing k with
  | nil => exact ⟨0, k, rfl, h⟩
  | cons c cs ih =>
    obtain ⟨hc, hcs⟩ := List.forall_mem_cons.1 hcs
    obtain ⟨added, next, hinsert, hnext⟩ := h.insert hc
    obtain ⟨n, k', hrest, h'⟩ := ih hnext hcs
    rw [Knowledge.insertAll, hinsert]
    simp only [hrest]
    exact ⟨_, k', rfl, h'⟩

theorem Respects.assume {cs : List Constraint} (h : k.Respects T) (hcs : ∀ c ∈ cs, c.Meets T) :
    ∃ k', k.assume cs = .ok k' ∧ k'.Respects T := by
  induction cs generalizing k with
  | nil => exact ⟨k, rfl, h⟩
  | cons c cs ih =>
    obtain ⟨hc, hcs⟩ := List.forall_mem_cons.1 hcs
    obtain ⟨added, k', hinsert, h'⟩ := h.insert hc
    rw [Knowledge.assume, hinsert]
    exact ih h' hcs

end Knowledge

end LoopInvariant
