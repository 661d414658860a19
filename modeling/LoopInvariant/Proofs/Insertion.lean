import LoopInvariant.Proofs.Explanation
import Mathlib.Logic.Relation
/-!
# What an insertion does

An insertion registers datapoints and gives them labels, one change after the other, and may find at
some point that labels contradict each other or a constraint. What single changes keep and what
clashes mean then holds of every insertion.
-/

namespace LoopInvariant

namespace Knowledge

variable {k k' : Knowledge} {c : Constraint} {d e : Datapoint} {l : Label} {queue : List Pending}
  {s : Knowledge × List Pending}

/-! ## Changes and clashes -/

/-- What an insertion does in one step. A datapoint that is registered is mentioned by a constraint
or is the common part of two others. A label that is given has its reason, and one that is taken
over goes to a registered datapoint. -/
inductive Change (k : Knowledge) : Knowledge → Prop where
  | point {d : Datapoint}
      (hd : k.Mentions d ∨ ∃ e ∈ k.datapoints, ∃ f ∈ k.datapoints, e.meet? f = some d) :
      Change k { k with points := k.points.insert d }
  | label {d : Datapoint} {l : Label} {queue : List Pending} {s : Knowledge × List Pending}
      (hl : k.Justified d l) (hd : ∀ e, l.reason = .subsumed e → d ∈ k.datapoints)
      (hset : k.setLabel d l queue = .ok s) : Change k s.1

abbrev Changes : Knowledge → Knowledge → Prop := Relation.ReflTransGen Change

/-- How a contradiction comes about. A false datapoint would be true, a true one would be false
because one inside it is, or a constraint without target has true sources only. -/
inductive Clash (k : Knowledge) : Contradiction → Prop where
  | reached {d : Datapoint} {t f : Label} (ht : k.Justified d t) (htrue : t.polarity = true)
      (hf : k.label? d = some f) (hfalse : f.polarity = false) :
      Clash k (k.contradiction (k.explain k.explainFuel d f (k.explain k.explainFuel d t {})))
  | excluded {d e : Datapoint} {t f : Label} (hreason : f.reason = .subsumed e)
      (hfalse : f.polarity = false) (hsub : e.subset d = true) (he : k.HasLabel false e false)
      (ht : k.label? d = some t) (htrue : t.polarity = true) :
      Clash k (k.contradiction (k.explain k.explainFuel d f (k.explain k.explainFuel d t {})))
  | fired {id : Nat} {c : Constraint} (hc : k.constraints[id]? = some c) (hnone : c.target = none)
      (htrue : ∀ s ∈ c.sources, k.HasLabel false s true) :
      Clash k (k.contradiction ((c.sources.foldl (k.explainPoint k.explainFuel) {}).push id))

structure Grows (k k' : Knowledge) : Prop where
  constraints_eq : k'.constraints = k.constraints
  datapoints_subset : k.datapoints ⊆ k'.datapoints
  keeps : ∀ {sure d p}, k.HasLabel sure d p → k'.HasLabel sure d p

theorem Change.grows (h : k.Change k') : k.Grows k' := by
  cases h with
  | point => exact ⟨rfl, fun e he => mem_datapoints_insert.2 (.inr he), id⟩
  | label _ _ hset =>
    have hadvances := advances_setLabel hset
    exact ⟨hadvances.constraints_eq, fun e he => hadvances.datapoints_eq ▸ he, hadvances.keeps⟩

theorem Changes.grows (h : k.Changes k') : k.Grows k' := by
  induction h with
  | refl => exact ⟨rfl, List.Subset.refl _, id⟩
  | tail _ hchange ih =>
    have hlast := hchange.grows
    exact ⟨hlast.constraints_eq.trans ih.constraints_eq,
      List.Subset.trans ih.datapoints_subset hlast.datapoints_subset, hlast.keeps ∘ ih.keeps⟩

theorem Grows.mentions (h : k.Grows k') (hd : k.Mentions d) : k'.Mentions d := by
  rwa [Mentions, h.constraints_eq]

/-! ## Computations -/

/-- A computation that changes what is known, and fails only with a clash. -/
inductive Outcome {α : Type} (known : α → Knowledge) (k : Knowledge) :
    Except Contradiction α → Prop where
  | ok {a : α} (h : k.Changes (known a)) : Outcome known k (.ok a)
  | error {k' : Knowledge} {e : Contradiction} (h : k.Changes k') (hclash : k'.Clash e) :
      Outcome known k (.error e)

namespace Outcome

variable {α β : Type} {known : α → Knowledge} {known' : β → Knowledge} {x : Except Contradiction α}

theorem after (h : k.Changes k') (hx : Outcome known k' x) : Outcome known k x := by
  cases hx with
  | ok h' => exact .ok (h.trans h')
  | error h' hclash => exact .error (h.trans h') hclash

theorem bind {f : α → Except Contradiction β} (hx : Outcome known k x)
    (hf : ∀ a, k.Changes (known a) → Outcome known' (known a) (f a)) :
    Outcome known' k (x >>= f) := by
  cases hx with
  | ok h => exact (hf _ h).after h
  | error h hclash => exact .error h hclash

theorem foldlM {f : β → α → Except Contradiction β} {xs : List α} {b : β}
    (hf : ∀ a ∈ xs, ∀ b', (known' b).Changes (known' b') → Outcome known' (known' b') (f b' a)) :
    Outcome known' (known' b) (xs.foldlM f b) := by
  induction xs generalizing b with
  | nil => exact .ok .refl
  | cons a xs ih =>
    rw [List.foldlM_cons]
    refine (hf a List.mem_cons_self b .refl).bind fun b' hb' => ih fun a' ha' b'' hb'' => ?_
    exact hf a' (List.mem_cons_of_mem a ha') b'' (hb'.trans hb'')

end Outcome

/-! ## Labels -/

/-- A justified label is given, or it contradicts the one that is there. A constraint makes only a
datapoint false that is not true. -/
theorem outcome_setLabel (hl : k.Justified d l)
    (hd : ∀ e, l.reason = .subsumed e → d ∈ k.datapoints)
    (hopen : ∀ i, l.reason = .constraint i → l.polarity = false → ¬k.HasLabel false d true)
    (queue : List Pending) : Outcome Prod.fst k (k.setLabel d l queue) := by
  cases hset : k.setLabel d l queue with
  | ok s => exact .ok (.single (.label hl hd hset))
  | error e =>
    rcases setLabel_cases k d l queue with ⟨_, -, -, heq⟩ | heq | ⟨t, f, htrue, hfalse, hsides, heq⟩
    · cases hset.symm.trans heq
    · cases hset.symm.trans heq
    · cases hset.symm.trans heq
      rcases hsides with ⟨rfl, hf⟩ | ⟨rfl, ht⟩
      · exact .error .refl (.reached hl htrue hf hfalse)
      · cases hl with
        | subsumed hreason hinherits hlabel =>
          rw [hfalse] at hinherits hlabel
          exact .error .refl (.excluded hreason hfalse hinherits hlabel.weaken ht htrue)
        | forced hreason => exact absurd ⟨t, ht, htrue, nofun⟩ (hopen _ hreason hfalse)

theorem outcome_takeOver {universal polarity : Bool} (hd : d ∈ k.datapoints)
    (hinherits : d.inherits polarity e = true) (he : k.HasLabel universal e polarity)
    (queue : List Pending) :
    Outcome Prod.fst k (k.setLabel d ⟨polarity, universal, .subsumed e⟩ queue) :=
  outcome_setLabel (.subsumed rfl hinherits he) (fun _ _ => hd)
    (fun _ hreason => by cases hreason) queue

theorem spread_cons (d : Datapoint) (polarity universal : Bool) (e : Datapoint)
    (es : List Datapoint) (s : Knowledge × List Pending) :
    spread d polarity universal (e :: es) s =
      s.1.setLabel e ⟨polarity, universal, .subsumed d⟩ s.2 >>= spread d polarity universal es := by
  rw [spread]
  cases s.1.setLabel e ⟨polarity, universal, .subsumed d⟩ s.2 <;> rfl

theorem outcome_spread {polarity universal : Bool} {es : List Datapoint}
    (hd : s.1.HasLabel universal d polarity)
    (hes : ∀ e ∈ es, e ∈ s.1.datapoints ∧ e.inherits polarity d = true) :
    Outcome Prod.fst s.1 (spread d polarity universal es s) := by
  induction es generalizing s with
  | nil => exact .ok .refl
  | cons e es ih =>
    obtain ⟨⟨he, hinherits⟩, hes⟩ := List.forall_mem_cons.1 hes
    rw [spread_cons]
    refine (outcome_takeOver he hinherits hd s.2).bind fun s' hs' => ?_
    have hgrows := Changes.grows hs'
    exact ih (hgrows.keeps hd) fun f hf =>
      ⟨hgrows.datapoints_subset (hes f hf).1, (hes f hf).2⟩

theorem inherit_cons (d e : Datapoint) (l : Label) (ls : List (Datapoint × Label))
    (s : Knowledge × List Pending) :
    inherit d ((e, l) :: ls) s = if l.polarity = d.subset e then
      s.1.setLabel d ⟨l.polarity, l.universal, .subsumed e⟩ s.2 >>= inherit d ls
      else inherit d ls s := by
  rw [inherit]
  split
  · cases s.1.setLabel d ⟨l.polarity, l.universal, .subsumed e⟩ s.2 <;> rfl
  · rfl

theorem outcome_inherit {ls : List (Datapoint × Label)} (hd : d ∈ s.1.datapoints)
    (hls : ∀ e l, (e, l) ∈ ls → s.1.HasLabel l.universal e l.polarity ∧
      (l.polarity = d.subset e → d.inherits l.polarity e = true)) :
    Outcome Prod.fst s.1 (inherit d ls s) := by
  induction ls generalizing s with
  | nil => exact .ok .refl
  | cons x ls ih =>
    obtain ⟨e, l⟩ := x
    obtain ⟨hlabel, hinherits⟩ := hls e l List.mem_cons_self
    rw [inherit_cons]
    split
    · next htakes =>
      refine (outcome_takeOver hd (hinherits htakes) hlabel s.2).bind fun s' hs' => ?_
      have hgrows := Changes.grows hs'
      refine ih (hgrows.datapoints_subset hd) fun e' l' hmem => ?_
      obtain ⟨hlabel', hinherits'⟩ := hls e' l' (List.mem_cons_of_mem _ hmem)
      exact ⟨hgrows.keeps hlabel', hinherits'⟩
    · exact ih hd fun e' l' hmem => hls e' l' (List.mem_cons_of_mem _ hmem)

/-! ## Constraints -/

/-- What checking a constraint can do: nothing, give a label that it justifies, or find that all its
sources are true and it has no target. -/
theorem check_cases (k : Knowledge) (id : Nat) (queue : List Pending) :
    k.check id queue = .ok (k, queue) ∨
      (∃ d l, k.Justified d l ∧ l.reason = .constraint id ∧
        (l.polarity = false → ¬k.HasLabel false d true) ∧ k.check id queue = k.setLabel d l queue) ∨
      ∃ c, k.constraints[id]? = some c ∧ c.target = none ∧
        (∀ s ∈ c.sources, k.HasLabel false s true) ∧ k.check id queue = .error
          (k.contradiction ((c.sources.foldl (k.explainPoint k.explainFuel) {}).push id)) := by
  rw [check]
  cases hc : k.constraints[id]? with
  | none => exact .inl rfl
  | some c =>
    simp only
    split
    · exact .inl rfl
    · have hopened : ∀ x, x ∈ (c.sources.filter fun x => !k.isTrue x).eraseDups ↔
          x ∈ c.sources ∧ ¬k.HasLabel false x true := fun x => mem_opened_iff
      obtain ⟨-, huniversal⟩ := (universal_iff (k := k) (c := c)).1 fun h => h
      generalize (c.sources.filter fun x => !k.isTrue x).eraseDups = opened at hopened ⊢
      generalize (!c.isAssumed && c.sources.all fun s => !k.isTrue s || k.isDecided true s) =
        universal at huniversal ⊢
      have htrue : ∀ s ∈ c.sources, s ∉ opened → k.HasLabel false s true := fun s hs hmem =>
        by_contra fun hopen => hmem ((hopened s).2 ⟨hs, hopen⟩)
      split
      · next hnone =>
        exact .inr (.inr ⟨c, rfl, hnone, fun s hs => htrue s hs List.not_mem_nil, rfl⟩)
      · next t ht =>
        refine .inr (.inl ⟨t, ⟨true, universal, .constraint id⟩,
          .forced rfl hc ⟨ht, fun s hs => ?_⟩, rfl, fun h => absurd h.symm Bool.false_ne_true, rfl⟩)
        exact huniversal s hs (htrue s hs List.not_mem_nil)
      · next x hnone =>
        obtain ⟨hx, hopen⟩ := (hopened x).1 List.mem_cons_self
        refine .inr (.inl ⟨x, ⟨false, universal, .constraint id⟩,
          .forced rfl hc ⟨hx, fun t ht => ?_, fun s hs hne => ?_⟩, rfl, fun _ => hopen, rfl⟩)
        · cases hnone.symm.trans ht
        · exact huniversal s hs (htrue s hs (List.mem_singleton.not.2 hne))
      · next x t ht =>
        obtain ⟨hx, hopen⟩ := (hopened x).1 List.mem_cons_self
        split
        · next l hl =>
          split
          · exact .inl rfl
          · next hfalse =>
            refine .inr (.inl ⟨x, ⟨false, universal && l.universal, .constraint id⟩,
              .forced rfl hc ⟨hx, fun t' ht' => ?_, fun s hs hne => ?_⟩, rfl, fun _ => hopen,
              rfl⟩)
            · cases ht.symm.trans ht'
              exact ⟨l, hl, by simpa using hfalse, fun hboth => (Bool.and_eq_true_iff.1 hboth).2⟩
            · refine (huniversal s hs (htrue s hs (List.mem_singleton.not.2 hne))).relax ?_
              exact fun hboth => (Bool.and_eq_true_iff.1 hboth).1
        · exact .inl rfl
      · exact .inl rfl

theorem outcome_check (k : Knowledge) (id : Nat) (queue : List Pending) :
    Outcome Prod.fst k (k.check id queue) := by
  rcases check_cases k id queue with
    heq | ⟨d, l, hl, hreason, hopen, heq⟩ | ⟨c, hc, hnone, htrue, heq⟩
  · rw [heq]
    exact .ok .refl
  · rw [heq]
    refine outcome_setLabel hl (fun e he => ?_) (fun _ _ => hopen) queue
    cases hreason.symm.trans he
  · rw [heq]
    exact .error .refl (.fired hc hnone htrue)

theorem outcome_workOut (k : Knowledge) (p : Pending) (queue : List Pending) :
    Outcome Prod.fst k (k.workOut p queue) := by
  cases p with
  | check id => exact outcome_check k id queue
  | labelled d =>
    rw [workOut]
    cases hl : k.label? d with
    | none => exact .ok .refl
    | some l =>
      have hd : k.HasLabel l.universal d l.polarity := ⟨l, hl, rfl, id⟩
      simp only
      apply outcome_spread (s := (k, _)) hd
      intro e he
      cases hpolarity : l.polarity with
      | true =>
        rw [hpolarity, if_pos rfl] at he
        exact ⟨(mem_subsetsOf_iff.1 he).2.1, mem_subsetsOf he⟩
      | false =>
        rw [hpolarity, if_neg Bool.false_ne_true] at he
        exact ⟨(mem_supersetsOf_iff.1 he).2.1, mem_supersetsOf he⟩

theorem propagate_cons (fuel : Nat) (k : Knowledge) (p : Pending) (queue : List Pending) :
    propagate (fuel + 1) k (p :: queue) =
      k.workOut p queue >>= fun s => propagate fuel s.1 s.2 := by
  rw [propagate]
  cases k.workOut p queue <;> rfl

theorem outcome_propagate (fuel : Nat) (k : Knowledge) (queue : List Pending) :
    Outcome id k (propagate fuel k queue) := by
  induction fuel generalizing k queue with
  | zero => exact .ok .refl
  | succ fuel ih =>
    cases queue with
    | nil => exact .ok .refl
    | cons p queue =>
      rw [propagate_cons]
      exact (outcome_workOut k p queue).bind fun s _ => ih s.1 s.2

/-! ## New datapoints and constraints -/

theorem outcome_relatives (s : Knowledge × List Pending) (d : Datapoint) :
    Outcome Prod.fst { s.1 with points := s.1.points.insert d }
      (inherit d (s.1.relatives d) ({ s.1 with points := s.1.points.insert d }, s.2)) := by
  apply outcome_inherit (s := ({ s.1 with points := s.1.points.insert d }, s.2))
    (mem_datapoints_insert.2 (.inl rfl))
  intro e l hmem
  obtain ⟨hl, -, -, hrelated⟩ := mem_relatives.1 hmem
  refine ⟨⟨l, hl, rfl, id⟩, fun htakes => ?_⟩
  cases hpolarity : l.polarity with
  | true => exact htakes.symm.trans hpolarity
  | false =>
    refine hrelated.resolve_left fun hsub => ?_
    rw [← htakes, hpolarity] at hsub
    cases hsub

theorem outcome_register (fuel : Nat)
    (hd : s.1.Mentions d ∨ ∃ e ∈ s.1.datapoints, ∃ f ∈ s.1.datapoints, e.meet? f = some d) :
    Outcome Prod.fst s.1 (register fuel d s) := by
  induction fuel generalizing d s with
  | zero => exact .ok .refl
  | succ fuel ih =>
    rw [register_succ]
    split
    · exact .ok .refl
    · refine .after (.single (.point hd)) ((outcome_relatives s d).bind fun s' hs' => ?_)
      refine .foldlM fun m hm s'' hs'' => ih (.inr ?_)
      -- the common parts are those with datapoints that are still registered
      have hkept := (Changes.grows (hs'.trans hs'')).datapoints_subset
      obtain ⟨e, he, -, -, hmeet⟩ := mem_commonParts.1 (List.mem_reverse.1 hm)
      exact ⟨d, hkept (mem_datapoints_insert.2 (.inl rfl)), e,
        hkept (mem_datapoints_insert.2 (.inr he)), hmeet⟩

theorem registerAll_cons (d : Datapoint) (ds : List Datapoint) (s : Knowledge × List Pending) :
    registerAll (d :: ds) s = register (s.1.registerFuel d) d s >>= registerAll ds := by
  rw [registerAll]
  cases register (s.1.registerFuel d) d s <;> rfl

theorem outcome_registerAll {ds : List Datapoint} (hds : ∀ d ∈ ds, s.1.Mentions d) :
    Outcome Prod.fst s.1 (registerAll ds s) := by
  induction ds generalizing s with
  | nil => exact .ok .refl
  | cons d ds ih =>
    obtain ⟨hd, hds⟩ := List.forall_mem_cons.1 hds
    rw [registerAll_cons]
    refine (outcome_register _ (.inl hd)).bind fun s' hs' => ih fun e he => ?_
    exact (Changes.grows hs').mentions (hds e he)

theorem insert_of_mem (hc : c ∈ k.constraints) : k.insert c = .ok (false, k) := by
  rw [insert, if_pos (Array.contains_iff_mem.2 hc)]

/-- A new constraint is noted first, and everything else is a change or a clash. -/
theorem outcome_insert (hnew : c ∉ k.constraints) :
    Outcome Prod.snd { k with constraints := k.constraints.push c } (k.insert c) := by
  have hregister := outcome_registerAll (s := ({ k with constraints := k.constraints.push c }, []))
    fun d hd => ⟨c, Array.mem_push_self, hd⟩
  rw [insert, if_neg (mt Array.contains_iff_mem.1 hnew)]
  cases hresult : registerAll c.datapoints ({ k with constraints := k.constraints.push c }, []) with
  | error e =>
    rw [hresult] at hregister
    cases hregister with
    | error h hclash => exact .error h hclash
  | ok s =>
    rw [hresult] at hregister
    cases hregister with
    | ok h =>
      have hpropagate := outcome_propagate (s.1.propagateFuel (s.2 ++ [.check k.size])) s.1
        (s.2 ++ [.check k.size])
      exact (hpropagate.bind (f := fun next => .ok (true, next)) fun _ _ => .ok .refl).after h

theorem changes_of_insert {added : Bool} (h : k.insert c = .ok (added, k')) :
    k' = k ∨ c ∉ k.constraints ∧
      Changes { k with constraints := k.constraints.push c } k' := by
  by_cases hc : c ∈ k.constraints
  · cases (insert_of_mem hc).symm.trans h
    exact .inl rfl
  · have houtcome := outcome_insert hc
    rw [h] at houtcome
    cases houtcome with
    | ok hchanges => exact .inr ⟨hc, hchanges⟩

theorem clash_of_insert {e : Contradiction} (h : k.insert c = .error e) :
    c ∉ k.constraints ∧
      ∃ k', Changes { k with constraints := k.constraints.push c } k' ∧ k'.Clash e := by
  by_cases hc : c ∈ k.constraints
  · cases (insert_of_mem hc).symm.trans h
  · have houtcome := outcome_insert hc
    rw [h] at houtcome
    cases houtcome with
    | error hchanges hclash => exact ⟨hc, _, hchanges, hclash⟩

end Knowledge

end LoopInvariant
