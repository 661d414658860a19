import LoopInvariant.Learner
import LoopInvariant.Proofs.Except
import LoopInvariant.Proofs.Execution
/-!
# Candidates from observed values

A learner that takes only observed values as thresholds suggests candidates that have a truth value
wherever the variables have their declared sorts: every predicate in its trees compares a declared
variable with a constant of its sort, or is a Boolean variable.
-/

namespace LoopInvariant

/-! ## Formulas that have a truth value -/

def Term.DefinedOn (ok : State → Prop) (t : Term) : Prop := ∀ u, ok u → t.evalBool u.env ≠ none

variable {ok : State → Prop}

theorem Term.DefinedOn.complement {t : Term} (h : t.DefinedOn ok) : t.complement.DefinedOn ok := by
  intro u hu
  rw [evalBool_complement, ne_eq, Option.map_eq_none_iff]
  exact h u hu

theorem Term.definedOn_junction (op : Junction) {ts : List Term} (h : ∀ t ∈ ts, t.DefinedOn ok) :
    (junction op ts).DefinedOn ok := by
  intro u hu hnone
  rw [evalBool_junction, Junction.join_eq_none_iff] at hnone
  obtain ⟨t, ht, hvalue⟩ := List.mem_map.1 hnone.2
  exact h t ht u hu hvalue

namespace Candidates

variable {c d : Candidates} {t : Term} {l : Loc}

theorem dnf_guard (c : Candidates) (t : Term) (l : Loc) :
    (c.guard t).dnf l = (c.dnf l).map (· ++ [t]) := by
  rw [dnf, dnfOr, guard, SortedMap.get?_mapValues, dnf, dnfOr]
  cases c.sites.get? l <;> rfl

theorem dnf_or (c d : Candidates) (l : Loc) : (c.or d).dnf l = c.dnf l ++ d.dnf l := by
  rw [dnf, dnfOr, or, SortedMap.get?_ofList_map]
  split
  · rfl
  · next hkeys =>
    -- a site that neither names has both defaults
    rw [SortedSet.mem_toList_ofList, List.mem_append, not_or, SortedMap.mem_keys_iff,
      SortedMap.mem_keys_iff] at hkeys
    have hc : c.sites.get? l = none := Option.eq_none_iff_forall_ne_some.2 (not_exists.1 hkeys.1)
    have hd : d.sites.get? l = none := Option.eq_none_iff_forall_ne_some.2 (not_exists.1 hkeys.2)
    rw [dnf, dnfOr, hc, dnf, dnfOr, hd]
    rfl

theorem dnf_insert (c : Candidates) (site : Loc) (f : Dnf) (l : Loc) :
    (c.insert site f).dnf l = if l = site then f else c.dnf l := by
  rw [dnf, dnfOr, insert, SortedMap.get?_insert]
  split <;> rfl

theorem dnf_foldl_insert (sites : List Loc) (f : Loc → Dnf) (c : Candidates) (l : Loc) :
    (sites.foldl (fun c l => c.insert l (f l)) c).dnf l = if l ∈ sites then f l else c.dnf l := by
  induction sites generalizing c with
  | nil => simp
  | cons site sites ih =>
    rw [List.foldl_cons, ih, dnf_insert]
    by_cases hmem : l ∈ sites
    · simp [hmem]
    · by_cases heq : l = site
      · simp [heq]
      · simp [hmem, heq]

theorem dnf_select (sites : List Loc) (inside outside : Candidates) (l : Loc) :
    (select sites inside outside).dnf l =
      if l ∈ sites then inside.dnf l else outside.dnf l := by
  rw [select, dnf_foldl_insert]
  split
  · rfl
  · next hl =>
    have hget : (outside.sites.filter fun l _ => l ∉ sites).get? l = outside.sites.get? l := by
      ext f
      rw [SortedMap.get?_filter_eq_some_iff]
      simp [hl]
    rw [dnf, dnfOr, hget, dnf, dnfOr]

def All (P : Term → Prop) (c : Candidates) : Prop := ∀ l, ∀ ts ∈ c.dnf l, ∀ t ∈ ts, P t

section All

variable {P : Term → Prop}

theorem All.guard (h : c.All P) (ht : P t) : (c.guard t).All P := by
  intro l
  rw [dnf_guard]
  refine List.forall_mem_map.2 fun ts hts => ?_
  exact List.forall_mem_append.2 ⟨h l ts hts, List.forall_mem_singleton.2 ht⟩

theorem All.or (hc : c.All P) (hd : d.All P) : (c.or d).All P := by
  intro l
  rw [dnf_or]
  exact List.forall_mem_append.2 ⟨hc l, hd l⟩

theorem All.select (sites : List Loc) (hc : c.All P) (hd : d.All P) :
    (select sites c d).All P := by
  intro l
  rw [dnf_select]
  split
  · exact hc l
  · exact hd l

end All

def DefinedOn (ok : State → Prop) (c : Candidates) : Prop :=
  ∀ l, ∀ ts ∈ c.dnf l, ∀ t ∈ ts, t.DefinedOn ok

theorem DefinedOn.formula (h : c.DefinedOn ok) (l : Loc) : (c.formula l).DefinedOn ok :=
  Term.definedOn_junction .or
    (List.forall_mem_map.2 fun ts hts => Term.definedOn_junction .and (h l ts hts))

end Candidates

/-! ## Trees -/

namespace DecisionTree

def AllValues (P : Term → Prop) : DecisionTree → Prop
  | leaf _ => True
  | node (.value t) yes no => P t ∧ yes.AllValues P ∧ no.AllValues P
  | node (.sites _) yes no => yes.AllValues P ∧ no.AllValues P

/-- The candidates of a tree are made of its predicates and their complements. -/
theorem all_candidates {P : Term → Prop} (hcomplement : ∀ t, P t → P t.complement)
    {tree : DecisionTree} (h : tree.AllValues P) : tree.candidates.All P := by
  induction tree with
  | leaf inside =>
    intro l ts hts t ht
    cases inside with
    | true =>
      cases List.mem_singleton.1 hts
      cases ht
    | false => cases hts
  | node decision yes no ihyes ihno =>
    cases decision with
    | value t =>
      obtain ⟨ht, hyes, hno⟩ := h
      exact ((ihyes hyes).guard ht).or ((ihno hno).guard (hcomplement t ht))
    | sites s => exact (ihyes h.1).select s.toList (ihno h.2)

theorem definedOn_candidates {tree : DecisionTree} (h : tree.AllValues (Term.DefinedOn ok)) :
    tree.candidates.DefinedOn ok :=
  all_candidates (fun _ ht => ht.complement) h

end DecisionTree

theorem Value.exists_bool {v : Value} (h : v.sort = .bool) : ∃ b, v = .bool b := by
  cases v with
  | bool b => exact ⟨b, rfl⟩
  | int i => cases h

theorem Value.exists_int {v : Value} (h : v.sort = .int) : ∃ i, v = .int i := by
  cases v with
  | bool b => cases h
  | int i => exact ⟨i, rfl⟩

/-! ## Growing -/

namespace TreeLearner

variable {learner : TreeLearner} {P : Term → Prop}

theorem mem_of_best? {splits : List (Nat × Split)} {x : Nat × Split} (h : best? splits = some x) :
    x ∈ splits := by
  induction splits with
  | nil => cases h
  | cons s rest ih =>
    rw [best?] at h
    split at h
    · cases h
      exact List.mem_cons_self
    · next b hb =>
      split at h
      · cases h
        exact List.mem_cons_of_mem _ (ih hb)
      · cases h
        exact List.mem_cons_self

theorem decision_of_split {k : Knowledge} {points : List Datapoint} {s : Split}
    (h : learner.split k points = .ok s) :
    (∃ sites, s.decision = .sites sites) ∨
      ∃ t ∈ learner.predicates points, s.decision = .value t := by
  rw [split] at h
  simp only at h
  split at h
  · cases h
    exact .inl ⟨_, rfl⟩
  · split at h
    · next hbest =>
      cases h
      obtain ⟨t, ht, hsplit⟩ := List.mem_filterMap.1 (mem_of_best? hbest)
      rw [splitOn?] at hsplit
      simp only at hsplit
      split at hsplit
      · cases hsplit
        exact .inr ⟨t, ht, rfl⟩
      · cases hsplit
    · cases h

theorem allValues_of_grow (hP : ∀ points, ∀ t ∈ learner.predicates points, P t) {depth : Nat}
    {k : Knowledge} {points : List Datapoint} {r : DecisionTree × Knowledge}
    (h : learner.grow depth k points = .ok r) : r.1.AllValues P := by
  induction depth generalizing k points r with
  | zero => cases h
  | succ depth ih =>
    rw [grow] at h
    split at h
    · cases h
      trivial
    · split at h
      · cases h
      · next s hsplit =>
        split at h
        · cases h
        · next yes k' hyes =>
          split at h
          · cases h
          · next no k'' hno =>
            cases h
            rcases decision_of_split hsplit with ⟨sites, hsites⟩ | ⟨t, ht, hvalue⟩
            · simp only [hsites]
              exact ⟨ih hyes, ih hno⟩
            · simp only [hvalue]
              exact ⟨hP points t ht, ih hyes, ih hno⟩

theorem allValues_of_learn (hP : ∀ points, ∀ t ∈ learner.predicates points, P t) {k : Knowledge}
    {tree : DecisionTree} (h : learner.learn k = .ok tree) : tree.AllValues P := by
  obtain ⟨r, hgrow, rfl⟩ := map_eq_ok.1 h
  exact allValues_of_grow hP hgrow

/-- The predicates on a variable have truth values where it has its declared sort. -/
theorem definedOn_predicatesOn {d : VarDecl} (hok : ∀ u, ok u → (u d.name).sort = d.sort)
    {points : List Datapoint} {t : Term} (ht : t ∈ predicatesOn d points) : t.DefinedOn ok := by
  intro u hu
  have hsort := hok u hu
  rw [predicatesOn] at ht
  cases hd : d.sort with
  | bool =>
    obtain ⟨b, hb⟩ := Value.exists_bool (hsort.trans hd)
    have htrue : t = .var d.name := by
      simp only [hd] at ht
      split at ht
      · cases ht
      · exact List.mem_singleton.1 ht
    simp [htrue, Term.evalBool, Term.eval, State.env, hb, Value.bool?]
  | int =>
    obtain ⟨i, hi⟩ := Value.exists_int (hsort.trans hd)
    simp only [hd, List.mem_append, List.mem_map] at ht
    rcases ht with ⟨c, -, rfl⟩ | ⟨c, -, rfl⟩
    · simp [Term.evalBool, Term.eval, State.env, hi, Value.bool?, Value.int?]
    · simp [Term.evalBool, Term.equals, Term.eval, State.env, hi, Value.bool?, Connective.join]

end TreeLearner

theorem Learner.definedOn_of_call {decls : List VarDecl}
    (hok : ∀ u, ok u → ∀ d ∈ decls, (u d.name).sort = d.sort) {k : Knowledge} {cs : Candidates}
    (h : (call (.tree { decls }) k).suggestion = .ok cs) : cs.DefinedOn ok := by
  rw [call] at h
  obtain ⟨tree, htree, rfl⟩ := map_eq_ok.1 h
  refine DecisionTree.definedOn_candidates (TreeLearner.allValues_of_learn ?_ htree)
  intro points t ht
  rw [TreeLearner.predicates, if_pos rfl, List.append_nil] at ht
  obtain ⟨d, hd, ht⟩ := List.mem_flatMap.1 ht
  exact TreeLearner.definedOn_predicatesOn (fun u hu => hok u hu d hd) ht

end LoopInvariant
