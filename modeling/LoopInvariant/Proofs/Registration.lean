import LoopInvariant.Proofs.Consistency
import Mathlib.Data.List.Perm.Subperm
/-!
# The registered datapoints

The registered datapoints are those that the constraints mention, closed under common parts. So they
depend on the set of constraints only and not on the order in which these came.

Registering a datapoint leaves its common parts with others to be registered next. A common part
fixes a variable more than the datapoint it was made for, and all variables occur in datapoints that
are there at first, so the fuel is never used up.
-/

namespace LoopInvariant

/-! ## Common parts -/

namespace Datapoint

variable {d e m : Datapoint}

private theorem get?_insertIfNew (v : Valuation) (x y : String) (a : Value) :
    (v.insertIfNew x a).get? y = (v.get? y).or (if y = x then some a else none) := by
  rw [SortedMap.insertIfNew, SortedMap.contains]
  by_cases hy : y = x
  · subst hy
    cases h : v.get? y with
    | none => simp [SortedMap.get?_insert_self]
    | some b => simp [h]
  · cases h : v.get? x with
    | none => simp [hy, SortedMap.get?_insert_of_ne]
    | some b => simp [hy]

private theorem get?_foldl_insertIfNew (es : List (String × Value)) (v : Valuation) (x : String) :
    (es.foldl (fun v (y, a) => v.insertIfNew y a) v).get? x =
      (v.get? x).or (SortedMap.lookup x es) := by
  induction es generalizing v with
  | nil => simp [SortedMap.lookup]
  | cons y es ih =>
    obtain ⟨y, a⟩ := y
    rw [List.foldl_cons, ih, get?_insertIfNew, Option.or_assoc]
    by_cases hx : x = y
    · subst hx
      simp [SortedMap.lookup, Std.ReflCmp.compare_self]
    · have hne : compare x y ≠ .eq := fun heq => hx (Std.LawfulEqCmp.eq_of_compare heq)
      simp only [hx, if_false, Option.none_or, SortedMap.lookup]

theorem disjoint_eq_false_iff :
    d.disjoint e = false ↔ d.site = e.site ∧
      ∀ x a b, d.valuation.get? x = some a → e.valuation.get? x = some b → a = b := by
  simp only [disjoint, Bool.or_eq_false_iff, decide_eq_false_iff_not, not_not, List.any_eq_false,
    Prod.forall, SortedMap.mem_entries_iff, Option.any_eq_true, decide_eq_true_eq, not_exists,
    not_and]
  constructor
  · rintro ⟨hsite, h⟩
    exact ⟨hsite, fun x a b ha hb => (h x a ha b hb).symm⟩
  · rintro ⟨hsite, h⟩
    exact ⟨hsite, fun x a ha b hb => (h x a b ha hb).symm⟩

theorem meet?_eq_some_iff :
    d.meet? e = some m ↔ d.disjoint e = false ∧ m.site = d.site ∧
      ∀ x, m.valuation.get? x = (d.valuation.get? x).or (e.valuation.get? x) := by
  have hget : ∀ x, (e.valuation.entries.foldl (fun v (y, a) => v.insertIfNew y a) d.valuation).get? x
      = (d.valuation.get? x).or (e.valuation.get? x) := get?_foldl_insertIfNew _ _
  rw [meet?]
  split
  · next hdisjoint => simp [hdisjoint]
  · next hdisjoint =>
    rw [Bool.not_eq_true] at hdisjoint
    simp only [hdisjoint, true_and, Option.some.injEq]
    constructor
    · rintro rfl
      exact ⟨rfl, hget⟩
    · rintro ⟨hsite, hvalues⟩
      exact eq_of_get? hsite.symm fun x => (hget x).trans (hvalues x).symm

theorem meet?_comm : d.meet? e = some m ↔ e.meet? d = some m := by
  have hflip : ∀ {d e : Datapoint}, d.meet? e = some m → e.meet? d = some m := by
    intro d e h
    obtain ⟨hagree, hsite, hvalues⟩ := meet?_eq_some_iff.1 h
    obtain ⟨hsame, hboth⟩ := disjoint_eq_false_iff.1 hagree
    refine meet?_eq_some_iff.2 ⟨disjoint_eq_false_iff.2 ⟨hsame.symm, ?_⟩, hsite.trans hsame, ?_⟩
    · exact fun x a b ha hb => (hboth x b a hb ha).symm
    · intro x
      rw [hvalues]
      cases hd : d.valuation.get? x with
      | none => simp
      | some a =>
        cases he : e.valuation.get? x with
        | none => rfl
        | some b => simp [hboth x a b hd he]
  exact ⟨hflip, hflip⟩

theorem meet?_of_subset (h : d.subset e = true) : d.meet? e = some d := by
  obtain ⟨hsite, hvalues⟩ := subset_iff.1 h
  refine meet?_eq_some_iff.2 ⟨disjoint_eq_false_iff.2 ⟨hsite, fun x a b ha hb => ?_⟩, rfl, ?_⟩
  · rw [hvalues x b hb] at ha
    exact (Option.some.inj ha).symm
  · intro x
    cases he : e.valuation.get? x with
    | none => simp
    | some b => simp [hvalues x b he]

theorem keys_meet? (h : d.meet? e = some m) {names : List String} (hd : d.valuation.keys ⊆ names)
    (he : e.valuation.keys ⊆ names) : m.valuation.keys ⊆ names := by
  obtain ⟨-, -, hvalues⟩ := meet?_eq_some_iff.1 h
  intro x hx
  obtain ⟨a, ha⟩ := SortedMap.mem_keys_iff.1 hx
  rw [hvalues, Option.or_eq_some_iff] at ha
  rcases ha with ha | ⟨-, ha⟩
  · exact hd (SortedMap.mem_keys_iff.2 ⟨a, ha⟩)
  · exact he (SortedMap.mem_keys_iff.2 ⟨a, ha⟩)

theorem size_lt_of_meet? (h : d.meet? e = some m) (hsub : d.subset e = false) :
    d.valuation.size < m.valuation.size := by
  obtain ⟨hagree, -, hvalues⟩ := meet?_eq_some_iff.1 h
  obtain ⟨hsite, hboth⟩ := disjoint_eq_false_iff.1 hagree
  have hextra : ∃ x, d.valuation.get? x = none ∧ ∃ b, e.valuation.get? x = some b := by
    by_contra hnone
    push Not at hnone
    rw [Bool.eq_false_iff] at hsub
    refine hsub (subset_iff.2 ⟨hsite, fun x b hb => ?_⟩)
    cases hd : d.valuation.get? x with
    | none => exact absurd hb (hnone x hd b)
    | some a => rw [hboth x a b hd hb]
  obtain ⟨x, hnone, b, hb⟩ := hextra
  have hkeys : x :: d.valuation.keys ⊆ m.valuation.keys := by
    intro y hy
    rw [SortedMap.mem_keys_iff, hvalues]
    rcases List.mem_cons.1 hy with rfl | hy
    · exact ⟨b, by rw [hnone, Option.none_or, hb]⟩
    · obtain ⟨a, ha⟩ := SortedMap.mem_keys_iff.1 hy
      exact ⟨a, by rw [ha, Option.some_or]⟩
  have hfresh : x ∉ d.valuation.keys := by
    rw [SortedMap.mem_keys_iff, hnone]
    simp
  have hlength := ((List.nodup_cons.2 ⟨hfresh, d.valuation.nodup_keys⟩).subperm hkeys).length_le
  rw [List.length_cons, SortedMap.length_keys, SortedMap.length_keys] at hlength
  exact hlength

/-- What comes from given datapoints by taking common parts. -/
inductive Generated (S : Datapoint → Prop) : Datapoint → Prop where
  | given {d : Datapoint} (hd : S d) : Generated S d
  | meet {d e m : Datapoint} (hd : Generated S d) (he : Generated S e) (hm : d.meet? e = some m) :
      Generated S m

variable {S T : Datapoint → Prop}

theorem Generated.trans (h : Generated S d) (hST : ∀ e, S e → Generated T e) : Generated T d := by
  induction h with
  | given hd => exact hST _ hd
  | meet _ _ hm ihd ihe => exact .meet ihd ihe hm

theorem Generated.mono (h : Generated S d) (hST : ∀ e, S e → T e) : Generated T d :=
  h.trans fun e he => .given (hST e he)

theorem Generated.keys_subset (h : Generated S d) {names : List String}
    (hS : ∀ e, S e → e.valuation.keys ⊆ names) : d.valuation.keys ⊆ names := by
  induction h with
  | given hd => exact hS _ hd
  | meet _ _ hm ihd ihe => exact keys_meet? hm ihd ihe

end Datapoint

/-! ## Registering -/

namespace Knowledge

variable {k k' k'' : Knowledge} {d : Datapoint} {names : List String}

/-- Common parts of registered datapoints are registered, or are still owed. -/
def MeetsIn (k : Knowledge) (owed : List Datapoint) : Prop :=
  ∀ d e m, d ∈ k.datapoints → e ∈ k.datapoints → d.meet? e = some m →
    m ∈ k.datapoints ∨ m ∈ owed

/-- What registering datapoints does to the registered ones: they and all common parts are added,
and nothing else. -/
structure Adds (k : Knowledge) (ds : List Datapoint) (k' : Knowledge) : Prop where
  subset : k.datapoints ⊆ k'.datapoints
  mem : ds ⊆ k'.datapoints
  meetsIn : ∀ owed, k.MeetsIn (ds ++ owed) → k'.MeetsIn owed
  generated : ∀ e ∈ k'.datapoints, Datapoint.Generated (fun f => f ∈ ds ∨ f ∈ k.datapoints) e

theorem Adds.nil (k : Knowledge) : k.Adds [] k :=
  ⟨List.Subset.refl _, List.nil_subset _, fun _ h => h, fun _ he => .given (.inr he)⟩

theorem Adds.cons {ds : List Datapoint} (h : k.Adds [d] k') (h' : k'.Adds ds k'') :
    k.Adds (d :: ds) k'' where
  subset := fun e he => h'.subset (h.subset he)
  mem := List.cons_subset.2 ⟨h'.subset (h.mem List.mem_cons_self), h'.mem⟩
  meetsIn := fun owed howed => h'.meetsIn owed (h.meetsIn _ howed)
  generated := by
    intro e he
    apply (h'.generated e he).trans
    rintro f (hf | hf)
    · exact .given (.inl (List.mem_cons_of_mem _ hf))
    · apply (h.generated f hf).mono
      rintro g (hg | hg)
      · exact .inl (List.mem_singleton.1 hg ▸ List.mem_cons_self)
      · exact .inr hg

theorem Adds.keys_subset {ds : List Datapoint} (h : k.Adds ds k')
    (hnames : ∀ e, e ∈ ds ∨ e ∈ k.datapoints → e.valuation.keys ⊆ names) :
    ∀ e ∈ k'.datapoints, e.valuation.keys ⊆ names :=
  fun e he => (h.generated e he).keys_subset hnames

theorem mem_commonParts {m : Datapoint} :
    m ∈ k.commonParts d ↔ ∃ e ∈ k.datapoints, d.subset e = false ∧ e.subset d = false ∧
      d.meet? e = some m := by
  simp only [commonParts, List.mem_filterMap, List.mem_filter, decide_eq_true_eq]
  constructor
  · rintro ⟨e, ⟨he, -⟩, hmeet⟩
    split at hmeet
    · cases hmeet
    · next hsub =>
      rw [Bool.or_eq_true, not_or, Bool.not_eq_true, Bool.not_eq_true] at hsub
      exact ⟨e, he, hsub.1, hsub.2, hmeet⟩
  · rintro ⟨e, he, hde, hed, hmeet⟩
    have hsite := (Datapoint.disjoint_eq_false_iff.1 (Datapoint.meet?_eq_some_iff.1 hmeet).1).1
    exact ⟨e, ⟨he, hsite.symm⟩, by rw [hde, hed]; exact hmeet⟩

/-- A new datapoint owes its common parts with the others. -/
theorem MeetsIn.addPoint {owed : List Datapoint} (h : k.MeetsIn (d :: owed))
    (hmem : ∀ e, e ∈ k'.datapoints ↔ e = d ∨ e ∈ k.datapoints) :
    k'.MeetsIn ((k.commonParts d).reverse ++ owed) := by
  have hd : d ∈ k'.datapoints := (hmem d).2 (.inl rfl)
  have hwith : ∀ e m, e ∈ k.datapoints → d.meet? e = some m →
      m ∈ k'.datapoints ∨ m ∈ (k.commonParts d).reverse ++ owed := by
    intro e m he hmeet
    cases hde : d.subset e with
    | true =>
      rw [Datapoint.meet?_of_subset hde] at hmeet
      exact .inl (Option.some.inj hmeet ▸ hd)
    | false =>
      cases hed : e.subset d with
      | true =>
        rw [Datapoint.meet?_comm, Datapoint.meet?_of_subset hed] at hmeet
        exact .inl (Option.some.inj hmeet ▸ (hmem e).2 (.inr he))
      | false =>
        have hpart : m ∈ k.commonParts d := mem_commonParts.2 ⟨e, he, hde, hed, hmeet⟩
        exact .inr (List.mem_append_left _ (List.mem_reverse.2 hpart))
  intro e f m he hf hmeet
  rcases (hmem e).1 he with rfl | he
  · rcases (hmem f).1 hf with rfl | hf
    · rw [Datapoint.meet?_of_subset f.subset_refl] at hmeet
      exact .inl (Option.some.inj hmeet ▸ hd)
    · exact hwith f m hf hmeet
  · rcases (hmem f).1 hf with rfl | hf
    · exact hwith e m he (Datapoint.meet?_comm.1 hmeet)
    · rcases h e f m he hf hmeet with hm | hm
      · exact .inl ((hmem m).2 (.inr hm))
      · rcases List.mem_cons.1 hm with rfl | hm
        · exact .inl hd
        · exact .inr (List.mem_append_right _ hm)

/-- There is fuel to register datapoints. No variables are fixed but given ones, and a common part
fixes one more than what it is a part of. -/
structure Room (k : Knowledge) (names : List String) (fuel : Nat) (ds : List Datapoint) : Prop where
  keys : ∀ e, e ∈ ds ∨ e ∈ k.datapoints → e.valuation.keys ⊆ names
  lt : ∀ d ∈ ds, names.length < fuel + d.valuation.size

theorem Room.pos {fuel : Nat} (h : k.Room names fuel [d]) : 0 < fuel := by
  have hlength := (d.valuation.nodup_keys.subperm (h.keys d (.inl List.mem_cons_self))).length_le
  have hlt := h.lt d List.mem_cons_self
  rw [SortedMap.length_keys] at hlength
  omega

theorem Room.head {fuel : Nat} {ds : List Datapoint} (h : k.Room names fuel (d :: ds)) :
    k.Room names fuel [d] where
  keys := fun e he => h.keys e (he.imp_left fun hd => List.mem_cons.2 (.inl (List.mem_singleton.1 hd)))
  lt := List.forall_mem_singleton.2 (h.lt d List.mem_cons_self)

theorem Room.tail {fuel : Nat} {ds : List Datapoint} (h : k.Room names fuel (d :: ds))
    (hadds : k.Adds [d] k') : k'.Room names fuel ds where
  keys := by
    rintro e (he | he)
    · exact h.keys e (.inl (List.mem_cons_of_mem _ he))
    · exact hadds.keys_subset h.head.keys e he
  lt := fun m hm => h.lt m (List.mem_cons_of_mem _ hm)

theorem Room.commonParts {fuel : Nat} (h : k.Room names (fuel + 1) [d])
    (hmem : ∀ e, e ∈ k'.datapoints ↔ e = d ∨ e ∈ k.datapoints) :
    k'.Room names fuel (k.commonParts d).reverse where
  keys := by
    have hd := h.keys d (.inl List.mem_cons_self)
    rintro e (he | he)
    · obtain ⟨f, hf, -, -, hmeet⟩ := mem_commonParts.1 (List.mem_reverse.1 he)
      exact Datapoint.keys_meet? hmeet hd (h.keys f (.inr hf))
    · rcases (hmem e).1 he with rfl | he
      · exact hd
      · exact h.keys e (.inr he)
  lt := by
    intro m hm
    obtain ⟨f, -, hsub, -, hmeet⟩ := mem_commonParts.1 (List.mem_reverse.1 hm)
    have hlarger := Datapoint.size_lt_of_meet? hmeet hsub
    have hlt := h.lt d List.mem_cons_self
    omega

/-- The fuel exceeds the number of variables that are fixed anywhere. -/
private theorem length_flatMap_keys_lt (ds : List Datapoint) :
    (ds.flatMap fun e => e.valuation.keys).length < ds.foldr (fun e n => e.valuation.size + n) 1 := by
  induction ds with
  | nil => exact Nat.zero_lt_one
  | cons e ds ih =>
    rw [List.flatMap_cons, List.length_append, SortedMap.length_keys, List.foldr_cons]
    omega

theorem room_registerFuel (k : Knowledge) (d : Datapoint) :
    ∃ names, k.Room names (k.registerFuel d) [d] := by
  refine ⟨(d :: k.datapoints).flatMap fun e => e.valuation.keys, fun e he x hx => ?_, ?_⟩
  · rw [List.mem_singleton, ← List.mem_cons] at he
    exact List.mem_flatMap.2 ⟨e, he, hx⟩
  · rw [List.forall_mem_singleton]
    exact Nat.lt_add_right _ (length_flatMap_keys_lt (d :: k.datapoints))

/-- Several datapoints are registered one after the other if each is when there is fuel for it. -/
private theorem adds_foldlM {fuel : Nat}
    (hregister : ∀ {m : Datapoint} {s s' : Knowledge × List Pending},
      s.1.Room names fuel [m] → register fuel m s = .ok s' → s.1.Adds [m] s'.1)
    {ms : List Datapoint} {s s' : Knowledge × List Pending} (hroom : s.1.Room names fuel ms)
    (hrun : ms.foldlM (fun s m => register fuel m s) s = .ok s') : s.1.Adds ms s'.1 := by
  induction ms generalizing s with
  | nil =>
    cases hrun
    exact .nil _
  | cons m ms ih =>
    rw [List.foldlM_cons] at hrun
    obtain ⟨s₁, hstep, hrun⟩ := bind_eq_ok.1 hrun
    have hfirst := hregister hroom.head hstep
    exact hfirst.cons (ih (hroom.tail hfirst) hrun)

theorem adds_register {fuel : Nat} {s s' : Knowledge × List Pending}
    (hroom : s.1.Room names fuel [d]) (hrun : register fuel d s = .ok s') : s.1.Adds [d] s'.1 := by
  induction fuel generalizing d s s' with
  | zero => exact absurd hroom.pos (Nat.lt_irrefl 0)
  | succ fuel ih =>
    rw [register_succ] at hrun
    split at hrun
    · next hmem =>
      cases hrun
      have hd : d ∈ s.1.datapoints := PointIndex.contains_iff_mem_toList.1 hmem
      refine ⟨List.Subset.refl _, by simpa using hd, fun owed howed e f m he hf hmeet => ?_,
        fun e he => .given (.inr he)⟩
      rcases howed e f m he hf hmeet with hm | hm
      · exact .inl hm
      · rcases List.mem_cons.1 hm with rfl | hm
        · exact .inl hd
        · exact .inr hm
    · obtain ⟨s₁, hinherit, hrun⟩ := bind_eq_ok.1 hrun
      have hmem := mem_datapoints_inherit hinherit
      have hadds := adds_foldlM ih (hroom.commonParts hmem) hrun
      refine ⟨fun e he => hadds.subset ((hmem e).2 (.inr he)),
        List.cons_subset.2 ⟨hadds.subset ((hmem d).2 (.inl rfl)), List.nil_subset _⟩,
        fun owed howed => hadds.meetsIn owed (howed.addPoint hmem), fun e he => ?_⟩
      have hd : Datapoint.Generated (fun f => f ∈ [d] ∨ f ∈ s.1.datapoints) d :=
        .given (.inl List.mem_cons_self)
      apply (hadds.generated e he).trans
      rintro f (hf | hf)
      · obtain ⟨g, hg, -, -, hmeet⟩ := mem_commonParts.1 (List.mem_reverse.1 hf)
        exact .meet hd (.given (.inr hg)) hmeet
      · rcases (hmem f).1 hf with rfl | hf
        · exact hd
        · exact .given (.inr hf)

theorem adds_registerAll {ds : List Datapoint} {s s' : Knowledge × List Pending}
    (hrun : registerAll ds s = .ok s') : s.1.Adds ds s'.1 := by
  induction ds generalizing s with
  | nil =>
    cases hrun
    exact .nil _
  | cons d ds ih =>
    rw [registerAll] at hrun
    split at hrun
    · next s₁ hregister =>
      obtain ⟨names, hroom⟩ := s.1.room_registerFuel d
      exact (adds_register hroom hregister).cons (ih hrun)
    · cases hrun

/-! ## Any history -/

def Mentions (k : Knowledge) (d : Datapoint) : Prop := ∃ c ∈ k.constraints, d ∈ c.datapoints

private theorem registered_insert (hk : k.Saturated)
    (h : k.MeetsIn [] ∧ ∀ d ∈ k.datapoints, Datapoint.Generated k.Mentions d) {c : Constraint}
    {added : Bool} (hinsert : k.insert c = .ok (added, k')) :
    k'.MeetsIn [] ∧ ∀ d ∈ k'.datapoints, Datapoint.Generated k'.Mentions d := by
  obtain ⟨hmeets, hgenerated⟩ := h
  have hmem := (hk.insert hinsert).2
  rcases insert_eq_ok hinsert with ⟨-, rfl, -⟩ | ⟨-, -, next, queue, hregister, hpropagate⟩
  · exact ⟨hmeets, hgenerated⟩
  · obtain ⟨htracked, hmentioned, -⟩ := hk.registerAll hregister
    obtain ⟨-, -, hpoints⟩ :=
      htracked.propagate hmentioned (potential_le_fuel htracked) hpropagate
    have hadds := adds_registerAll hregister
    have hsame : k'.datapoints = next.datapoints := by rw [datapoints, hpoints, datapoints]
    constructor
    · rw [MeetsIn, hsame]
      refine hadds.meetsIn [] fun d e m hd he hmeet => ?_
      exact (hmeets d e m hd he hmeet).imp_right (absurd · List.not_mem_nil)
    · intro d hd
      rw [hsame] at hd
      apply (hadds.generated d hd).trans
      rintro e (he | he)
      · exact .given ⟨c, (hmem c).2 (.inr rfl), he⟩
      · apply (hgenerated e he).mono
        rintro f ⟨c', hc', hf⟩
        exact ⟨c', (hmem c').2 (.inl hc'), hf⟩

/-- The registered datapoints are those that the constraints mention and their common parts. -/
theorem Reachable.mem_datapoints_iff (h : k.Reachable) :
    d ∈ k.datapoints ↔ Datapoint.Generated k.Mentions d := by
  have hregistered : k.MeetsIn [] ∧ ∀ d ∈ k.datapoints, Datapoint.Generated k.Mentions d := by
    induction h with
    | empty =>
      constructor
      · intro d e m hd
        cases hd
      · intro d hd
        cases hd
    | insert hk hinsert ih => exact registered_insert hk.saturated ih hinsert
    | simplify _ ih => exact ih
  refine ⟨hregistered.2 d, fun hd => ?_⟩
  induction hd with
  | given hd =>
    obtain ⟨c, hc, hd⟩ := hd
    exact h.saturated.mentioned c hc _ hd
  | meet _ _ hm ihd ihe =>
    exact (hregistered.1 _ _ _ ihd ihe hm).resolve_right List.not_mem_nil

end Knowledge

end LoopInvariant
