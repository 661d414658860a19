import LoopInvariant.Proofs.Execution
import LoopInvariant.Session.Bounded
/-!
# The search in a box

A model that the bounded search finds makes the formula true, and the search misses no model in the
box. The order in which variables are assigned does not matter. The value that an equation gives for
a variable is the only one that can make the equation true, so trying no other loses nothing.
-/

namespace LoopInvariant

namespace BoundedSession

/-! ## Equations -/

private theorem eq_of_join_true {op : Connective} (hop : op = .equals ∨ op = .iff) {a b : Value}
    (h : op.join (some a) (some b) = some true) : a = b := by
  rcases hop with rfl | rfl
  · simpa [Connective.join] using h
  · cases a <;> cases b <;> simp_all [Connective.join, Value.bool?]

theorem eq_of_definition? {x : String} {c e : Term} (h : definition? x c = some e) :
    ∃ op, (op = .equals ∨ op = .iff) ∧ (c = .bin op (.var x) e ∨ c = .bin op e (.var x)) := by
  rw [definition?.eq_def] at h
  split at h
  · split at h
    · next hl =>
      cases h
      exact ⟨.equals, .inl rfl, .inl (hl.1 ▸ rfl)⟩
    · split at h
      · next hr =>
        cases h
        exact ⟨.equals, .inl rfl, .inr (hr.1 ▸ rfl)⟩
      · cases h
  · split at h
    · next hl =>
      cases h
      exact ⟨.iff, .inr rfl, .inl (hl.1 ▸ rfl)⟩
    · split at h
      · next hr =>
        cases h
        exact ⟨.iff, .inr rfl, .inr (hr.1 ▸ rfl)⟩
      · cases h
  · cases h

/-- An equation that is true gives its variable the value of the other side. -/
theorem definition?_eq_some {x : String} {c e : Term} (h : definition? x c = some e) {w : State}
    {v : Value} (htrue : c.evalBool w.env = some true) (hvalue : e.eval w.env = some v) :
    w x = v := by
  obtain ⟨op, hop, rfl | rfl⟩ := eq_of_definition? h
  · rw [Term.evalBool_bin, hvalue] at htrue
    exact eq_of_join_true hop htrue
  · rw [Term.evalBool_bin, hvalue] at htrue
    exact (eq_of_join_true hop htrue).symm

/-! ## The search -/

/-- A valuation says nothing that a state contradicts. -/
def Agrees (v : Valuation) (w : State) : Prop := ∀ x a, v.get? x = some a → w x = a

theorem Agrees.extends {v : Valuation} {w : State} (h : Agrees v w) : w.env.Extends v.get? :=
  fun x a hx => congrArg some (h x a hx)

theorem Agrees.insert {v : Valuation} {w : State} (h : Agrees v w) (x : String) :
    Agrees (v.insert x (w x)) w := by
  intro y a hy
  rw [SortedMap.get?_insert] at hy
  split at hy
  · next heq =>
    rw [heq]
    exact Option.some.inj hy
  · exact h y a hy

def InBox (sig : Signature) (radius : Nat) (w : State) : Prop :=
  ∀ x sort, sig.sortOf? x = some sort → w x ∈ domain radius sort

theorem mem_domain {radius : Nat} {sort : VarSort} {v : Value} (hsort : v.sort = sort)
    (hint : ∀ i, v = .int i → i.toInt.natAbs ≤ radius) : v ∈ domain radius sort := by
  subst hsort
  cases v with
  | bool b => cases b <;> simp [Value.sort, domain]
  | int i =>
    have hle := hint i rfl
    by_cases hzero : i = 0
    · rw [hzero]
      exact List.mem_cons_self
    · have hne : i.toInt ≠ 0 := fun heq => hzero (Int64.toInt_inj.1 heq)
      refine List.mem_cons_of_mem _ (List.mem_flatMap.2 ⟨i.toInt.natAbs - 1, ?_, ?_⟩)
      · rw [List.mem_range]
        omega
      · rw [Nat.sub_add_cancel (by omega), ← Int64.ofInt_eq_ofNat]
        rcases Int.lt_or_gt_of_ne hne with hneg | hpos
        · rw [Int.ofNat_natAbs_of_nonpos (Int.le_of_lt hneg), Int64.ofInt_neg, Int64.ofInt_toInt,
            Int64.neg_neg]
          exact List.mem_cons_of_mem _ List.mem_cons_self
        · rw [Int.natAbs_of_nonneg (Int.le_of_lt hpos), Int64.ofInt_toInt]
          exact List.mem_cons_self

theorem firstFound_eq_none {α : Type} {f : Value → Except SessionError (Option α)}
    {values : List Value} (h : firstFound f values = .ok none) : ∀ a ∈ values, f a = .ok none := by
  induction values with
  | nil => simp
  | cons a as ih =>
    rw [firstFound] at h
    split at h
    · next hnone => exact List.forall_mem_cons.2 ⟨hnone, ih h⟩
    · next hne => exact absurd h hne

theorem firstFound_eq_some {α : Type} {f : Value → Except SessionError (Option α)}
    {values : List Value} {r : α} (h : firstFound f values = .ok (some r)) :
    ∃ a ∈ values, f a = .ok (some r) := by
  induction values with
  | nil => cases h
  | cons a as ih =>
    rw [firstFound] at h
    split at h
    · obtain ⟨b, hb, hfound⟩ := ih h
      exact ⟨b, List.mem_cons_of_mem _ hb, hfound⟩
    · exact ⟨a, List.mem_cons_self, h⟩

variable {s : BoundedSession} {cs : List Term}

theorem mem_choices {w : State} (hbox : InBox s.signature s.radius w)
    (htrue : ∀ c ∈ cs, c.evalBool w.env = some true)
    {v : Valuation} (hagrees : Agrees v w) {x : String} {values : List Value}
    (h : s.choices x cs v = .ok values) : w x ∈ values := by
  rw [choices] at h
  split at h
  · next a hdefined =>
    cases h
    obtain ⟨c, hc, hvalue⟩ := List.exists_of_findSome?_eq_some hdefined
    obtain ⟨e, he, hvalue⟩ := Option.bind_eq_some_iff.1 hvalue
    exact List.mem_singleton.2
      (definition?_eq_some he (htrue c hc) (Term.eval_mono hagrees.extends e _ hvalue))
  · cases hsort : s.signature.sortOf? x with
    | none =>
      rw [Signature.sortOf, hsort] at h
      cases h
    | some sort =>
      rw [Signature.sortOf, hsort] at h
      cases h
      exact hbox x sort hsort

/-- The search misses no model in the box. -/
theorem search_ne_none {w : State} (hbox : InBox s.signature s.radius w)
    (htrue : ∀ c ∈ cs, c.evalBool w.env = some true) {xs : List String} {v : Valuation}
    (hagrees : Agrees v w)
    (hvars : ∀ c ∈ cs, ∀ x ∈ c.vars, x ∈ xs ∨ v.get? x = some (w x)) :
    s.search cs xs v ≠ .ok none := by
  induction xs generalizing v with
  | nil =>
    have hall : cs.all (fun c => c.evalBool v.get? = some true) = true := by
      refine List.all_eq_true.2 fun c hc => decide_eq_true ?_
      rw [← htrue c hc]
      refine Term.evalBool_congr fun x hx => ?_
      exact (hvars c hc x (Term.mem_vars_iff.2 hx)).resolve_left List.not_mem_nil
    rw [search, if_pos hall]
    simp
  | cons x xs ih =>
    intro hnone
    rw [search] at hnone
    split at hnone
    · next hany =>
      obtain ⟨c, hc, hfalse⟩ := List.any_eq_true.1 hany
      have hmono := Term.evalBool_mono hagrees.extends (of_decide_eq_true hfalse)
      rw [htrue c hc] at hmono
      cases hmono
    · split at hnone
      · cases hnone
      · split at hnone
        · cases hnone
        · next values hchoices =>
          have hmem := mem_choices hbox htrue hagrees hchoices
          refine ih (hagrees.insert x) (fun c hc y hy => ?_) (firstFound_eq_none hnone _ hmem)
          by_cases heq : y = x
          · exact .inr (by rw [heq, SortedMap.get?_insert_self])
          · rw [SortedMap.get?_insert_of_ne _ _ heq]
            exact (hvars c hc y hy).imp_left fun hmem =>
              (List.mem_cons.1 hmem).resolve_left heq

/-- What the search finds makes all conjuncts true. -/
theorem search_eq_some {xs : List String} {v m : Valuation}
    (h : s.search cs xs v = .ok (some m)) : ∀ c ∈ cs, c.evalBool m.get? = some true := by
  induction xs generalizing v with
  | nil =>
    rw [search, Except.ok.injEq] at h
    split at h
    · next hall =>
      cases h
      exact fun c hc => of_decide_eq_true (List.all_eq_true.1 hall c hc)
    · cases h
  | cons x xs ih =>
    rw [search] at h
    split at h
    · cases h
    · split at h
      · cases h
      · split at h
        · cases h
        · obtain ⟨a, -, hfound⟩ := firstFound_eq_some h
          exact ih hfound

theorem get?_of_search {xs : List String} {v m : Valuation}
    (h : s.search cs xs v = .ok (some m)) {x : String} {a : Value} (hx : m.get? x = some a) :
    x ∈ xs ∨ v.get? x = some a := by
  induction xs generalizing v with
  | nil =>
    rw [search, Except.ok.injEq] at h
    split at h
    · cases h
      exact .inr hx
    · cases h
  | cons y xs ih =>
    rw [search] at h
    split at h
    · cases h
    · split at h
      · cases h
      · split at h
        · cases h
        · obtain ⟨b, -, hfound⟩ := firstFound_eq_some h
          rcases ih hfound with hmem | hget
          · exact .inl (List.mem_cons_of_mem _ hmem)
          · by_cases heq : x = y
            · exact .inl (heq ▸ List.mem_cons_self)
            · rw [SortedMap.get?_insert_of_ne _ _ heq] at hget
              exact .inr hget

theorem mem_searchOrder {x : String} : x ∈ searchOrder cs ↔ ∃ c ∈ cs, x ∈ c.vars := by
  rw [searchOrder, List.mem_mergeSort, SortedSet.mem_toList_ofList, List.mem_flatMap]

theorem ofRadius?_eq_some (sig : Signature) {radius : Int64} (h : radius ≠ Int64.minValue) :
    ofRadius? sig radius = some { signature := sig, radius := radius.toInt.natAbs } := by
  have hlower := radius.le_toInt
  have hupper := radius.toInt_lt
  have hne : radius.toInt ≠ Int64.minValue.toInt := fun heq => h (Int64.toInt_inj.1 heq)
  have hmin : Int64.minValue.toInt = -9223372036854775808 := by decide
  have hfits : -9223372036854775808 ≤ (radius.toInt.natAbs : Int) ∧
      (radius.toInt.natAbs : Int) < 9223372036854775808 := by omega
  rw [ofRadius?, checkedInt64, if_pos hfits]
  rfl

/-- The absolute value of the smallest integer does not fit, so there is no session. -/
theorem ofRadius?_minValue (sig : Signature) : ofRadius? sig Int64.minValue = none := by
  have htoo_large : checkedInt64 Int64.minValue.toInt.natAbs = none := by decide
  rw [ofRadius?, htoo_large, Option.map_none]

end BoundedSession

end LoopInvariant
