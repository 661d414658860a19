import LoopInvariant.Proofs.SortedMap
import LoopInvariant.Term.Eval
import Mathlib.Tactic.Common
/-!
# Evaluation of built terms

What evaluation depends on and how it sees the simplifying constructors. A term evaluates alike in
environments that agree on its variables, knowing more never changes a value, and a junction is
worth the three-valued join of its operands however it was simplified on the way.
-/

namespace LoopInvariant

/-- One environment knows all that another does. -/
def Env.Extends (env' env : Env) : Prop := ∀ x a, env x = some a → env' x = some a

namespace Junction

variable (op : Junction)

theorem join_of_mem {bs : List (Option Bool)} (h : some op.absorbing ∈ bs) :
    op.join bs = some op.absorbing := by
  rw [join, if_pos h]

theorem join_of_not_mem {bs : List (Option Bool)} (h : some op.absorbing ∉ bs) :
    op.join bs = if none ∈ bs then none else some !op.absorbing := by
  rw [join, if_neg h]

/-- A join depends on whether an operand decides and, if none does, on whether one is unknown. -/
theorem join_congr {bs cs : List (Option Bool)}
    (hsome : some op.absorbing ∈ bs ↔ some op.absorbing ∈ cs)
    (hnone : some op.absorbing ∉ bs → (none ∈ bs ↔ none ∈ cs)) : op.join bs = op.join cs := by
  by_cases h : some op.absorbing ∈ bs
  · rw [op.join_of_mem h, op.join_of_mem (hsome.1 h)]
  · rw [op.join_of_not_mem h, op.join_of_not_mem (fun hc => h (hsome.2 hc))]
    simp only [hnone h]

theorem join_eq_absorbing_iff {bs : List (Option Bool)} :
    op.join bs = some op.absorbing ↔ some op.absorbing ∈ bs := by
  refine ⟨fun h => ?_, op.join_of_mem⟩
  by_contra hmem
  rw [op.join_of_not_mem hmem] at h
  split at h
  · cases h
  · cases op <;> simp [absorbing] at h

theorem join_eq_neutral_iff {bs : List (Option Bool)} :
    op.join bs = some (!op.absorbing) ↔ ∀ b ∈ bs, b = some (!op.absorbing) := by
  constructor
  · intro h b hb
    have hmem : some op.absorbing ∉ bs := fun hmem => by
      rw [op.join_of_mem hmem] at h
      cases op <;> simp [absorbing] at h
    rw [op.join_of_not_mem hmem] at h
    split at h
    · cases h
    · next hnone =>
      cases b with
      | none => exact absurd hb hnone
      | some b =>
        have hne : b ≠ op.absorbing := fun he => hmem (he ▸ hb)
        rw [Bool.eq_not.2 hne]
  · intro h
    have hmem : some op.absorbing ∉ bs := fun hmem => by
      have := h _ hmem
      cases op <;> simp [absorbing] at this
    have hnone : none ∉ bs := fun hmem => by cases h _ hmem
    rw [op.join_of_not_mem hmem, if_neg hnone]

theorem join_eq_none_iff {bs : List (Option Bool)} :
    op.join bs = none ↔ some op.absorbing ∉ bs ∧ none ∈ bs := by
  by_cases h : some op.absorbing ∈ bs
  · simp [op.join_of_mem h, h]
  · rw [op.join_of_not_mem h]
    by_cases hnone : none ∈ bs <;> simp [h, hnone]

theorem join_singleton (b : Option Bool) : op.join [b] = b := by
  cases b with
  | none => cases op <;> rfl
  | some b => cases op <;> cases b <;> rfl

theorem join_append (bs cs : List (Option Bool)) :
    op.join (bs ++ cs) = op.join [op.join bs, op.join cs] := by
  have hmem : ∀ o : Option Bool, o ∈ [op.join bs, op.join cs] ↔ op.join bs = o ∨ op.join cs = o := by
    intro o
    simp only [List.mem_cons, List.not_mem_nil, or_false, eq_comm]
  refine op.join_congr ?_ fun habs => ?_
  · rw [List.mem_append, hmem, join_eq_absorbing_iff, join_eq_absorbing_iff]
  · rw [List.mem_append, not_or] at habs
    rw [List.mem_append, hmem, join_eq_none_iff, join_eq_none_iff]
    simp [habs.1, habs.2]

theorem join_mono {α : Type} {f g : α → Option Bool} {xs : List α}
    (h : ∀ x ∈ xs, ∀ b, f x = some b → g x = some b) {b : Bool}
    (hb : op.join (xs.map f) = some b) : op.join (xs.map g) = some b := by
  by_cases hab : b = op.absorbing
  · subst hab
    rw [join_eq_absorbing_iff, List.mem_map] at hb ⊢
    obtain ⟨x, hx, hfx⟩ := hb
    exact ⟨x, hx, h x hx _ hfx⟩
  · obtain rfl : b = !op.absorbing := Bool.eq_not.2 hab
    rw [join_eq_neutral_iff] at hb ⊢
    intro c hc
    obtain ⟨x, hx, rfl⟩ := List.mem_map.1 hc
    exact h x hx _ (hb _ (List.mem_map_of_mem hx))

end Junction

namespace Connective

theorem join_mono (op : Connective) {a b a' b' : Option Value}
    (ha : ∀ v, a = some v → a' = some v) (hb : ∀ v, b = some v → b' = some v) {r : Bool}
    (h : op.join a b = some r) : op.join a' b' = some r := by
  have hbool : ∀ {o o' : Option Value}, (∀ v, o = some v → o' = some v) → ∀ p,
      o.bind Value.bool? = some p → o'.bind Value.bool? = some p := by
    intro o o' ho p hp
    obtain ⟨v, hv, hp⟩ := Option.bind_eq_some_iff.1 hp
    rw [ho v hv, Option.bind_some, hp]
  cases op with
  | equals | notEquals =>
    cases a with
    | none => simp [join] at h
    | some v =>
      cases b with
      | none => simp [join] at h
      | some w => rw [ha v rfl, hb w rfl, h]
  | implies =>
    simp only [join] at h ⊢
    cases hp : a.bind Value.bool? with
    | none =>
      cases hq : b.bind Value.bool? with
      | none => simp [hp, hq] at h
      | some q =>
        rw [hbool hb q hq]
        cases q with
        | false => simp [hp, hq] at h
        | true =>
          simp only [hp, hq, Option.some.injEq] at h
          split <;> simp_all
    | some p =>
      rw [hbool ha p hp]
      cases p with
      | false => simpa [hp] using h
      | true =>
        cases hq : b.bind Value.bool? with
        | none => simp [hp, hq] at h
        | some q => rw [hbool hb q hq]; simpa [hp, hq] using h
  | iff =>
    simp only [join] at h ⊢
    cases hp : a.bind Value.bool? with
    | none => simp [hp] at h
    | some p =>
      cases hq : b.bind Value.bool? with
      | none => simp [hp, hq] at h
      | some q => rw [hbool ha p hp, hbool hb q hq]; simpa [hp, hq] using h

end Connective

namespace Term

/-! ## What evaluation depends on -/

theorem evalBools_eq_map (env : Env) (ts : List Term) : evalBools env ts = ts.map (evalBool env) := by
  induction ts with
  | nil => rfl
  | cons t ts ih => rw [evalBools, ih, List.map_cons, evalBool]

theorem evalBool_nary (env : Env) (op : Junction) (ts : List Term) :
    (nary op ts).evalBool env = op.join (ts.map (evalBool env)) := by
  rw [evalBool, eval, evalBools_eq_map]
  cases op.join (ts.map (evalBool env)) <;> rfl

mutual

theorem eval_rename (f : String → String) (env : Env) :
    ∀ t : Term, (t.rename f).eval env = t.eval fun x => env (f x)
  | lit _ | int _ | var _ => rfl
  | not t | neg t => by simp only [rename, eval, eval_rename f env t]
  | bin _ l r | arith _ l r | rel _ l r => by
    simp only [rename, eval, eval_rename f env l, eval_rename f env r]
  | nary _ ts => by simp only [rename, eval, evalBools_renameList f env ts]
  | ite c t e => by
    simp only [rename, eval, eval_rename f env c, eval_rename f env t, eval_rename f env e]

theorem evalBools_renameList (f : String → String) (env : Env) :
    ∀ ts : List Term, evalBools env (renameList f ts) = evalBools (fun x => env (f x)) ts
  | [] => rfl
  | t :: ts => by
    simp only [renameList, evalBools, eval_rename f env t, evalBools_renameList f env ts]

end

mutual

theorem eval_congr {env env' : Env} :
    ∀ t : Term, (∀ x ∈ t.occurrences, env x = env' x) → t.eval env = t.eval env'
  | lit _, _ | int _, _ => rfl
  | var x, h => h x (by simp [occurrences])
  | not t, h | neg t, h => by
    simp only [occurrences] at h
    simp only [eval, eval_congr t h]
  | bin _ l r, h | arith _ l r, h | rel _ l r, h => by
    simp only [occurrences, List.mem_append] at h
    simp only [eval, eval_congr l fun x hx => h x (.inl hx), eval_congr r fun x hx => h x (.inr hx)]
  | nary _ ts, h => by
    simp only [occurrences] at h
    simp only [eval, evalBools_congr ts h]
  | ite c t e, h => by
    simp only [occurrences, List.mem_append] at h
    simp only [eval, eval_congr c fun x hx => h x (.inl (.inl hx)),
      eval_congr t fun x hx => h x (.inl (.inr hx)), eval_congr e fun x hx => h x (.inr hx)]

theorem evalBools_congr {env env' : Env} :
    ∀ ts : List Term, (∀ x ∈ occurrencesList ts, env x = env' x) →
      evalBools env ts = evalBools env' ts
  | [], _ => rfl
  | t :: ts, h => by
    simp only [occurrencesList, List.mem_append] at h
    simp only [evalBools, eval_congr t fun x hx => h x (.inl hx),
      evalBools_congr ts fun x hx => h x (.inr hx)]

end

theorem evalBool_congr {env env' : Env} {t : Term} (h : ∀ x ∈ t.occurrences, env x = env' x) :
    t.evalBool env = t.evalBool env' := by
  rw [evalBool, eval_congr t h, evalBool]

theorem mem_vars_iff {x : String} {t : Term} : x ∈ t.vars ↔ x ∈ t.occurrences := by
  rw [vars, SortedSet.mem_toList_ofList]

/-! ## Knowing more -/

private theorem bind_mono {α β : Type} {o o' : Option α} (h : ∀ a, o = some a → o' = some a)
    {f : α → Option β} {b : β} (hb : o.bind f = some b) : o'.bind f = some b := by
  obtain ⟨a, ha, hb⟩ := Option.bind_eq_some_iff.1 hb
  rw [h a ha, Option.bind_some, hb]

private theorem map_mono {α β : Type} {o o' : Option α} (h : ∀ a, o = some a → o' = some a)
    {f : α → β} {b : β} (hb : o.map f = some b) : o'.map f = some b := by
  obtain ⟨a, ha, hb⟩ := Option.map_eq_some_iff.1 hb
  rw [h a ha, Option.map_some, hb]

private theorem match_int_mono {β : Type} {o p o' p' : Option Value}
    (ho : ∀ a, o = some a → o' = some a) (hp : ∀ a, p = some a → p' = some a)
    {f : Int64 → Int64 → Option β} {b : β}
    (hb : (match o.bind Value.int?, p.bind Value.int? with
      | some i, some j => f i j
      | _, _ => none) = some b) :
    (match o'.bind Value.int?, p'.bind Value.int? with
      | some i, some j => f i j
      | _, _ => none) = some b := by
  cases hi : o.bind Value.int? with
  | none => simp [hi] at hb
  | some i =>
    cases hj : p.bind Value.int? with
    | none => simp [hi, hj] at hb
    | some j =>
      rw [bind_mono ho hi, bind_mono hp hj]
      simpa [hi, hj] using hb

mutual

/-- A value that is known stays the same when more is known. -/
theorem eval_mono {env env' : Env} (hext : env'.Extends env) :
    ∀ (t : Term) (v : Value), t.eval env = some v → t.eval env' = some v
  | lit _, _, h | int _, _, h => h
  | var x, v, h => hext x v h
  | not t, v, h => by
    simp only [eval] at h ⊢
    exact map_mono (fun _ => bind_mono (eval_mono hext t)) h
  | neg t, v, h => by
    simp only [eval] at h ⊢
    exact bind_mono (fun _ => bind_mono (eval_mono hext t)) h
  | bin op l r, v, h => by
    simp only [eval] at h ⊢
    exact map_mono (fun _ => op.join_mono (eval_mono hext l) (eval_mono hext r)) h
  | arith op l r, v, h => by
    simp only [eval] at h ⊢
    exact match_int_mono (eval_mono hext l) (eval_mono hext r) h
  | rel op l r, v, h => by
    simp only [eval] at h ⊢
    exact match_int_mono (eval_mono hext l) (eval_mono hext r) h
  | nary op ts, v, h => by
    simp only [eval, evalBools_eq_map] at h ⊢
    exact map_mono (fun _ => op.join_mono (evalBool_mono_of_mem hext ts)) h
  | ite c t e, v, h => by
    have ht := eval_mono hext t
    have he := eval_mono hext e
    simp only [eval] at h ⊢
    cases hc : (eval env c).bind Value.bool? with
    | some b =>
      rw [bind_mono (eval_mono hext c) hc]
      cases b with
      | true => exact ht v (by simpa [hc] using h)
      | false => exact he v (by simpa [hc] using h)
    | none =>
      -- both branches are known and agree, so it does not matter if the condition is known now
      cases hvt : eval env t with
      | none => simp [hc, hvt] at h
      | some a =>
        cases hve : eval env e with
        | none => simp [hc, hvt, hve] at h
        | some b =>
          rw [ht a hvt, he b hve]
          by_cases hab : a = b
          · subst hab
            have hv : a = v := by simpa [hc, hvt, hve] using h
            subst hv
            split <;> simp
          · simp [hc, hvt, hve, hab] at h

theorem evalBool_mono_of_mem {env env' : Env} (hext : env'.Extends env) :
    ∀ ts : List Term, ∀ t ∈ ts, ∀ b, t.evalBool env = some b → t.evalBool env' = some b
  | [], t, ht, _, _ => by cases ht
  | s :: ts, t, ht, b, hb => by
    have hhead := eval_mono hext s
    rcases List.mem_cons.1 ht with rfl | ht
    · exact bind_mono hhead hb
    · exact evalBool_mono_of_mem hext ts t ht b hb

end

theorem evalBool_mono {env env' : Env} (hext : env'.Extends env) {t : Term} {b : Bool}
    (h : t.evalBool env = some b) : t.evalBool env' = some b :=
  bind_mono (eval_mono hext t) h

/-- What is known stays. If all that is known of the variables of a term is still known elsewhere,
the term has there whatever value it has here, as a truth value and as an integer too. The rest of
it may be unknown, ill-sorted or out of range in either place. -/
theorem eval_kept_by_extension (t : Term) {env env' : Env}
    (hext : ∀ x ∈ t.vars, ∀ a, env x = some a → env' x = some a) :
    (∀ a, t.eval env = some a → t.eval env' = some a) ∧
      (∀ b, t.evalBool env = some b → t.evalBool env' = some b) ∧
      ∀ i, t.evalInt env = some i → t.evalInt env' = some i := by
  -- forgetting the other variables changes nothing, and then everything is extended
  let known : Env := fun x => if x ∈ t.vars then env x else none
  have heval : t.eval env = t.eval known :=
    eval_congr t fun x hx => (if_pos (mem_vars_iff.2 hx)).symm
  have hknown : env'.Extends known := by
    intro x a ha
    by_cases hx : x ∈ t.vars
    · exact hext x hx a ((if_pos hx).symm.trans ha)
    · cases (if_neg hx).symm.trans ha
  have hkeeps : ∀ a, t.eval env = some a → t.eval env' = some a := by
    rw [heval]
    exact eval_mono hknown t
  exact ⟨hkeeps, fun b => bind_mono hkeeps, fun i => bind_mono hkeeps⟩

def wrappedOrBranch : Term :=
  .nary .or [.rel .lt (.arith .add (.var "y") (.int 1)) (.int 0),
    .ite (.var "c") (.rel .lt (.var "x") (.int 5)) (.lit true)]

/-- With `x` alone it is true, and it stays so where the successor leaves the range and the
condition is an integer. -/
theorem wrappedOrBranch_kept :
    wrappedOrBranch.evalBool (SortedMap.ofList [("x", .int 3)]).get? = some true ∧
      (Term.arith .add (.var "y") (.int 1)).eval
        (SortedMap.ofList [("c", .int 7), ("x", .int 3), ("y", .int Int64.maxValue)]).get? = none ∧
      wrappedOrBranch.evalBool
        (SortedMap.ofList [("c", .int 7), ("x", .int 3), ("y", .int Int64.maxValue)]).get? =
          some true := by
  have htrue : wrappedOrBranch.evalBool (SortedMap.ofList [("x", .int 3)]).get? = some true := by
    decide +kernel
  have hvars : ∀ x ∈ wrappedOrBranch.vars, (SortedMap.ofList [("x", Value.int 3)]).get? x = none ∨
      (SortedMap.ofList [("x", Value.int 3)]).get? x = (SortedMap.ofList
        [("c", Value.int 7), ("x", .int 3), ("y", .int Int64.maxValue)]).get? x := by decide +kernel
  refine ⟨htrue, by decide +kernel, (eval_kept_by_extension _ fun x hx a ha => ?_).2.1 true htrue⟩
  rcases hvars x hx with hnone | hsame
  · cases hnone.symm.trans ha
  · exact hsame ▸ ha

/-! ## Simplifying constructors -/

theorem evalBool_lit (env : Env) (b : Bool) : (lit b).evalBool env = some b := rfl

theorem evalBool_not (env : Env) (t : Term) :
    (not t).evalBool env = (t.evalBool env).map fun b => !b := by
  simp only [evalBool, eval]
  cases (eval env t).bind Value.bool? <;> rfl

theorem evalBool_bin (env : Env) (op : Connective) (l r : Term) :
    (bin op l r).evalBool env = op.join (l.eval env) (r.eval env) := by
  simp only [evalBool, eval]
  cases op.join (eval env l) (eval env r) <;> rfl

private theorem join_notEquals (a b : Option Value) :
    Connective.notEquals.join a b = (Connective.equals.join a b).map fun p => !p := by
  cases a with
  | none => rfl
  | some a =>
    cases b with
    | none => rfl
    | some b => simp [Connective.join]

private theorem holds_negate (op : Relation) (i j : Int64) :
    op.negate.holds i j = !op.holds i j := by
  cases op <;> simp only [Relation.negate, Relation.holds, ← decide_not, Int64.not_lt, Int64.not_le]

private theorem evalBool_rel (env : Env) (op : Relation) (l r : Term) :
    (rel op l r).evalBool env =
      match l.evalInt env, r.evalInt env with
      | some i, some j => some (op.holds i j)
      | _, _ => none := by
  simp only [evalBool, eval, evalInt]
  cases (eval env l).bind Value.int? <;> cases (eval env r).bind Value.int? <;> rfl

theorem evalBool_complement (env : Env) (t : Term) :
    t.complement.evalBool env = (t.evalBool env).map fun b => !b := by
  cases t with
  | lit b => rfl
  | not t =>
    rw [complement, evalBool_not, Option.map_map]
    simp [Function.comp_def]
  | bin op l r =>
    cases op with
    | equals => rw [complement, evalBool_bin, evalBool_bin, join_notEquals]
    | notEquals =>
      rw [complement, evalBool_bin, evalBool_bin, join_notEquals, Option.map_map]
      simp [Function.comp_def]
    | implies | iff => exact evalBool_not env _
  | rel op l r =>
    rw [complement, evalBool_rel, evalBool_rel]
    cases l.evalInt env with
    | none => rfl
    | some i =>
      cases r.evalInt env with
      | none => rfl
      | some j => simp [holds_negate]
  | int _ | var _ | neg _ | arith _ _ _ | nary _ _ | ite _ _ _ => exact evalBool_not env _

/-- Opening one level of junctions puts the operands of those of the same kind in their place. -/
theorem mem_flatten_iff {op : Junction} {ts : List Term} {u : Term} :
    u ∈ flatten op ts ↔
      ∃ t ∈ ts, (∃ us, t = nary op us ∧ u ∈ us) ∨ ((∀ us, t ≠ nary op us) ∧ u = t) := by
  rw [flatten, List.mem_flatMap]
  refine exists_congr fun t => and_congr_right fun _ => ?_
  split
  · next op' us =>
    split
    · next hop => simp [hop]
    · next hop => simp [hop]
  · next hne =>
    have hother : ∀ us, t ≠ nary op us := fun us heq => hne op us heq
    simp [hother]

/-- A property that a junction of a kind has from its operands is not changed by opening it. -/
theorem exists_mem_flatten_iff {op : Junction} {ts : List Term} {P : Term → Prop}
    (hP : ∀ us, nary op us ∈ ts → (P (nary op us) ↔ ∃ u ∈ us, P u)) :
    (∃ u ∈ flatten op ts, P u) ↔ ∃ t ∈ ts, P t := by
  simp only [mem_flatten_iff]
  constructor
  · rintro ⟨u, ⟨t, ht, ⟨us, rfl, hu⟩ | ⟨-, rfl⟩⟩, h⟩
    · exact ⟨_, ht, (hP us ht).2 ⟨u, hu, h⟩⟩
    · exact ⟨u, ht, h⟩
  · rintro ⟨t, ht, h⟩
    by_cases hnary : ∃ us, t = nary op us
    · obtain ⟨us, rfl⟩ := hnary
      obtain ⟨u, hu, h⟩ := (hP us ht).1 h
      exact ⟨u, ⟨_, ht, .inl ⟨us, rfl, hu⟩⟩, h⟩
    · exact ⟨t, ⟨t, ht, .inr ⟨fun us hus => hnary ⟨us, hus⟩, rfl⟩⟩, h⟩

private theorem join_flatten (env : Env) (op : Junction) (ts : List Term) :
    op.join ((flatten op ts).map (evalBool env)) = op.join (ts.map (evalBool env)) := by
  refine op.join_congr ?_ fun habs => ?_
  · simp only [List.mem_map]
    refine exists_mem_flatten_iff fun us _ => ?_
    rw [evalBool_nary, op.join_eq_absorbing_iff, List.mem_map]
  · simp only [List.mem_map] at habs ⊢
    refine exists_mem_flatten_iff fun us hus => ?_
    -- an operand that decides would be one of the opened list
    have hundecided : some op.absorbing ∉ us.map (evalBool env) := by
      intro hmem
      obtain ⟨u, hu, hvalue⟩ := List.mem_map.1 hmem
      exact habs ⟨u, mem_flatten_iff.2 ⟨_, hus, .inl ⟨us, rfl, hu⟩⟩, hvalue⟩
    rw [evalBool_nary, op.join_eq_none_iff, and_iff_right hundecided, List.mem_map]

private theorem join_filter_neutral (env : Env) (op : Junction) (ts : List Term) :
    op.join ((ts.filter (· ≠ lit !op.absorbing)).map (evalBool env)) =
      op.join (ts.map (evalBool env)) := by
  have hmem : ∀ o : Option Bool, o ≠ some (!op.absorbing) →
      (o ∈ (ts.filter (· ≠ lit !op.absorbing)).map (evalBool env) ↔ o ∈ ts.map (evalBool env)) := by
    intro o ho
    simp only [List.mem_map, List.mem_filter]
    constructor
    · rintro ⟨t, ⟨ht, -⟩, rfl⟩
      exact ⟨t, ht, rfl⟩
    · rintro ⟨t, ht, rfl⟩
      refine ⟨t, ⟨ht, decide_eq_true fun heq => ho ?_⟩, rfl⟩
      rw [heq, evalBool_lit]
  exact op.join_congr (hmem _ (by cases op <;> simp [Junction.absorbing]))
    fun _ => hmem _ (by simp)

theorem evalBool_junction (env : Env) (op : Junction) (ts : List Term) :
    (junction op ts).evalBool env = op.join (ts.map (evalBool env)) := by
  rw [← join_filter_neutral, junction]
  split
  · next habs =>
    have hmem : some op.absorbing ∈
        (ts.filter (· ≠ lit !op.absorbing)).map (evalBool env) :=
      List.mem_map.2 ⟨_, habs, evalBool_lit env _⟩
    rw [evalBool_lit, op.join_of_mem hmem]
  · rw [← join_flatten]
    split
    · next hnil =>
      rw [hnil, evalBool_lit]
      cases op <;> rfl
    · next t hone => rw [hone, List.map_singleton, op.join_singleton]
    · next us hus hus' => rw [evalBool_nary]

/-- A simplified junction has what its operands have, unless one of them decides. -/
theorem junction_iff_exists {op : Junction} {ts : List Term} {P : Term → Prop}
    (hlit : ∀ b, ¬P (lit b)) (hnary : ∀ us, P (nary op us) ↔ ∃ u ∈ us, P u) :
    P (junction op ts) ↔ lit op.absorbing ∉ ts ∧ ∃ t ∈ ts, P t := by
  have hneutral : lit op.absorbing ≠ lit !op.absorbing := by cases op <;> simp [Junction.absorbing]
  have hkept : (∃ t ∈ ts.filter (· ≠ lit !op.absorbing), P t) ↔ ∃ t ∈ ts, P t := by
    constructor
    · rintro ⟨t, ht, h⟩
      exact ⟨t, (List.mem_filter.1 ht).1, h⟩
    · rintro ⟨t, ht, h⟩
      refine ⟨t, List.mem_filter.2 ⟨ht, decide_eq_true fun heq => ?_⟩, h⟩
      exact hlit _ (heq ▸ h)
  rw [← hkept, ← exists_mem_flatten_iff fun us _ => hnary us, junction]
  split
  · next habs => simp [hlit, (List.mem_filter.1 habs).1]
  · next habs =>
    have habsent : lit op.absorbing ∉ ts := fun hmem =>
      habs (List.mem_filter.2 ⟨hmem, decide_eq_true hneutral⟩)
    rw [and_iff_right habsent]
    split
    · next hnil =>
      rw [hnil]
      simp [hlit]
    · next t hone =>
      rw [hone]
      simp
    · exact hnary _

theorem evalBool_conj (env : Env) (ts : List Term) :
    (conj ts).evalBool env = Junction.and.join (ts.map (evalBool env)) :=
  evalBool_junction env .and ts

theorem evalBool_conj_eq_true_iff {env : Env} {ts : List Term} :
    (conj ts).evalBool env = some true ↔ ∀ t ∈ ts, t.evalBool env = some true := by
  rw [evalBool_conj, show (true : Bool) = !Junction.and.absorbing from rfl,
    Junction.join_eq_neutral_iff]
  simp

mutual

/-- A term is worth the conjunction of its conjuncts. -/
theorem evalBool_eq_join_conjuncts (env : Env) :
    ∀ t : Term, t.evalBool env = Junction.and.join (t.conjuncts.map (evalBool env))
  | nary .and ts => by rw [conjuncts, evalBool_nary, join_conjunctsList]
  | lit true => rfl
  | lit false | nary .or _ | int _ | var _ | not _ | neg _ | bin _ _ _ | arith _ _ _ | rel _ _ _
  | ite _ _ _ => (Junction.and.join_singleton _).symm

theorem join_conjunctsList (env : Env) :
    ∀ ts : List Term, Junction.and.join (ts.map (evalBool env)) =
      Junction.and.join ((conjunctsList ts).map (evalBool env))
  | [] => rfl
  | t :: ts => by
    rw [conjunctsList, List.map_append, Junction.join_append, ← evalBool_eq_join_conjuncts env t,
      ← join_conjunctsList env ts, List.map_cons, ← List.singleton_append, Junction.join_append,
      Junction.join_singleton]

end

theorem evalBool_eq_true_iff_conjuncts {env : Env} {t : Term} :
    t.evalBool env = some true ↔ ∀ c ∈ t.conjuncts, c.evalBool env = some true := by
  rw [evalBool_eq_join_conjuncts, ← evalBool_conj, evalBool_conj_eq_true_iff]

mutual

theorem occurrences_of_conjuncts {c : Term} {x : String} :
    ∀ {t : Term}, c ∈ t.conjuncts → x ∈ c.occurrences → x ∈ t.occurrences
  | nary .and ts, hc, hx => by
    rw [conjuncts] at hc
    rw [occurrences]
    exact occurrences_of_conjunctsList hc hx
  | lit true, hc, _ => by cases hc
  | lit false, hc, hx | int _, hc, hx | var _, hc, hx | not _, hc, hx | neg _, hc, hx
  | bin _ _ _, hc, hx | arith _ _ _, hc, hx | rel _ _ _, hc, hx | nary .or _, hc, hx
  | ite _ _ _, hc, hx => by
    rw [List.mem_singleton.1 hc] at hx
    exact hx

theorem occurrences_of_conjunctsList {c : Term} {x : String} :
    ∀ {ts : List Term}, c ∈ conjunctsList ts → x ∈ c.occurrences → x ∈ occurrencesList ts
  | [], hc, _ => by cases hc
  | t :: ts, hc, hx => by
    rw [conjunctsList] at hc
    rw [occurrencesList]
    rcases List.mem_append.1 hc with hc | hc
    · exact List.mem_append_left _ (occurrences_of_conjuncts hc hx)
    · exact List.mem_append_right _ (occurrences_of_conjunctsList hc hx)

end

end Term

end LoopInvariant
