import LoopInvariant.Proofs.SexpText
import LoopInvariant.Proofs.Sorting
/-!
# What queries mean

A solver reads s-expressions with the meaning that SMT-LIB gives to its core and integer symbols:
integers have no bounds, comparisons and equality can be chained, and each symbol takes arguments of
certain sorts and at least as many as it needs. A term has a value over unbounded integers as well,
which is the one that its evaluation gives wherever no result leaves the 64-bit range. The two agree
on well-sorted terms, whatever values the variables have.
-/

namespace LoopInvariant

/-! ## Values without bounds -/

/-- A truth value or an integer of any size. -/
inductive SmtValue where
  | bool (b : Bool)
  | int (i : Int)
  deriving DecidableEq

namespace SmtValue

def sort : SmtValue → VarSort
  | bool _ => .bool
  | int _ => .int

def bool? : SmtValue → Option Bool
  | bool b => some b
  | int _ => none

def int? : SmtValue → Option Int
  | bool _ => none
  | int i => some i

def ofValue : Value → SmtValue
  | .bool b => bool b
  | .int i => int i.toInt

theorem exists_bool {v : SmtValue} (h : v.sort = .bool) : ∃ b, v = bool b := by
  cases v with
  | bool b => exact ⟨b, rfl⟩
  | int i => cases h

theorem exists_int {v : SmtValue} (h : v.sort = .int) : ∃ i, v = int i := by
  cases v with
  | bool b => cases h
  | int i => exact ⟨i, rfl⟩

theorem ofValue_inj {v w : Value} : ofValue v = ofValue w ↔ v = w := by
  cases v <;> cases w <;> simp [ofValue, Int64.toInt_inj]

theorem mapM_bool? (bs : List Bool) : (bs.map bool).mapM bool? = some bs := by
  induction bs with
  | nil => rfl
  | cons b bs ih => simp [bool?, ih]

end SmtValue

open SmtValue (ofValue)

/-! ## S-expressions -/

namespace Sexp

def chained {α : Type} (r : α → α → Bool) : List α → Bool
  | a :: b :: rest => r a b && chained r (b :: rest)
  | _ => true

/-- Implication, which associates to the right. -/
def implication : List Bool → Bool
  | [] => true
  | [b] => b
  | b :: bs => !b || implication bs

/-- Subtraction, which associates to the left. Of one integer it is the opposite. -/
def difference : List Int → Int
  | [] => 0
  | [i] => -i
  | i :: is => is.foldl (· - ·) i

def onBools (f : List Bool → Bool) (vs : List SmtValue) : Option SmtValue :=
  if 2 ≤ vs.length then (vs.mapM SmtValue.bool?).map fun bs => .bool (f bs) else none

/-- A symbol that takes integers, at least so many. -/
def onInts (least : Nat) (f : List Int → SmtValue) (vs : List SmtValue) : Option SmtValue :=
  if least ≤ vs.length then (vs.mapM SmtValue.int?).map f else none

def onAlike (f : List SmtValue → Bool) (vs : List SmtValue) : Option SmtValue :=
  if 2 ≤ vs.length ∧ chained (fun v w => v.sort = w.sort) vs = true then some (.bool (f vs))
  else none

/-- What a symbol of the core and integer theories makes of its arguments. -/
def applied : String → List SmtValue → Option SmtValue
  | "not", [.bool b] => some (.bool !b)
  | "and", vs => onBools (·.all id) vs
  | "or", vs => onBools (·.any id) vs
  | "=>", vs => onBools implication vs
  | "=", vs => onAlike (chained fun v w => v = w) vs
  | "distinct", vs => onAlike (fun vs => vs.Nodup) vs
  | "ite", [.bool c, v, w] => if v.sort = w.sort then some (if c then v else w) else none
  | "-", vs => onInts 1 (fun is => .int (difference is)) vs
  | "+", vs => onInts 2 (fun is => .int (is.foldl (· + ·) 0)) vs
  | "*", vs => onInts 2 (fun is => .int (is.foldl (· * ·) 1)) vs
  | "<", vs => onInts 2 (fun is => .bool (chained (fun i j => i < j) is)) vs
  | "<=", vs => onInts 2 (fun is => .bool (chained (fun i j => i ≤ j) is)) vs
  | ">=", vs => onInts 2 (fun is => .bool (chained (fun i j => i ≥ j) is)) vs
  | ">", vs => onInts 2 (fun is => .bool (chained (fun i j => i > j) is)) vs
  | _, _ => none

mutual

/-- What an s-expression means, given the values of constants. -/
def meaning (ρ : String → SmtValue) : Sexp → Option SmtValue
  | num n => some (.int n.toNat)
  | sym "true" => some (.bool true)
  | sym "false" => some (.bool false)
  | sym s => some (ρ s)
  | list (sym f :: xs) => (meanings ρ xs).bind (applied f)
  | _ => none

def meanings (ρ : String → SmtValue) : List Sexp → Option (List SmtValue)
  | [] => some []
  | x :: xs => (meaning ρ x).bind fun v => (meanings ρ xs).map (v :: ·)

end

theorem meaning_app {ρ : String → SmtValue} {f : String} {xs : List Sexp} {vs : List SmtValue}
    (h : meanings ρ xs = some vs) : (app f xs).meaning ρ = applied f vs := by
  rw [app, meaning, h, Option.bind_some]

end Sexp

/-! ## Terms -/

/-- A connective on values without bounds. -/
def Connective.exact : Connective → SmtValue → SmtValue → Option Bool
  | equals, v, w => some (v = w)
  | notEquals, v, w => some (v ≠ w)
  | implies, .bool p, .bool q => some (!p || q)
  | iff, .bool p, .bool q => some (p = q)
  | _, _, _ => none

def Relation.exact : Relation → Int → Int → Bool
  | lt, i, j => i < j
  | leq, i, j => i ≤ j
  | geq, i, j => i ≥ j
  | gt, i, j => i > j

def Junction.exact : Junction → List Bool → Bool
  | and, bs => bs.all id
  | or, bs => bs.any id

namespace Term

mutual

/-- The value of a term over integers without bounds. -/
def meaning (ρ : String → SmtValue) : Term → Option SmtValue
  | lit b => some (.bool b)
  | int i => some (.int i.toInt)
  | var x => some (ρ x)
  | not t => ((meaning ρ t).bind SmtValue.bool?).map fun b => .bool !b
  | neg t => ((meaning ρ t).bind SmtValue.int?).map fun i => .int (-i)
  | bin op l r =>
    (meaning ρ l).bind fun v => (meaning ρ r).bind fun w => (op.exact v w).map .bool
  | arith op l r =>
    ((meaning ρ l).bind SmtValue.int?).bind fun i =>
      ((meaning ρ r).bind SmtValue.int?).map fun j => .int (op.apply i j)
  | rel op l r =>
    ((meaning ρ l).bind SmtValue.int?).bind fun i =>
      ((meaning ρ r).bind SmtValue.int?).map fun j => .bool (op.exact i j)
  | nary op ts => (meaningBools ρ ts).map fun bs => .bool (op.exact bs)
  | ite c t e =>
    ((meaning ρ c).bind SmtValue.bool?).bind fun b => if b then meaning ρ t else meaning ρ e

def meaningBools (ρ : String → SmtValue) : List Term → Option (List Bool)
  | [] => some []
  | t :: ts =>
    ((meaning ρ t).bind SmtValue.bool?).bind fun b => (meaningBools ρ ts).map (b :: ·)

end

theorem meaning_ite {ρ : String → SmtValue} {c t e : Term} {b : Bool}
    (h : c.meaning ρ = some (.bool b)) :
    (ite c t e).meaning ρ = if b then t.meaning ρ else e.meaning ρ := by
  rw [meaning, h]
  rfl

end Term

/-! ## The meaning of a translated term -/

namespace Sexp

variable {ρ : String → SmtValue} {x y z : Sexp} {u v w : SmtValue}

theorem meanings_one (hx : x.meaning ρ = some v) : meanings ρ [x] = some [v] := by
  simp [meanings, hx]

theorem meanings_two (hx : x.meaning ρ = some v) (hy : y.meaning ρ = some w) :
    meanings ρ [x, y] = some [v, w] := by
  simp [meanings, hx, hy]

theorem meanings_three (hx : x.meaning ρ = some u) (hy : y.meaning ρ = some v)
    (hz : z.meaning ρ = some w) : meanings ρ [x, y, z] = some [u, v, w] := by
  simp [meanings, hx, hy, hz]

theorem meaning_ofInt (ρ : String → SmtValue) (i : Int64) :
    (ofInt i).meaning ρ = some (.int i.toInt) := by
  rw [ofInt]
  split
  · have hnum : meanings ρ [num (UInt64.ofNat i.toInt.natAbs)] = some [.int i.toInt.natAbs] :=
      meanings_one (by rw [meaning, toNat_natAbs])
    have hopposite : -(i.toInt.natAbs : Int) = i.toInt := by omega
    rw [meaning_app hnum]
    show some (SmtValue.int (-(i.toInt.natAbs : Int))) = _
    rw [hopposite]
  · have hvalue : (i.toInt.natAbs : Int) = i.toInt := by omega
    rw [meaning, toNat_natAbs, hvalue]

theorem meaning_sym {s : String} (htrue : s ≠ "true") (hfalse : s ≠ "false") :
    (sym s).meaning ρ = some (ρ s) := by
  rw [meaning]
  · exact htrue
  · exact hfalse

end Sexp

/-! ## Where 64 bits suffice -/

theorem eq_bool_of_bind {o : Option Value} {b : Bool} (h : o.bind Value.bool? = some b) :
    o = some (.bool b) := by
  obtain ⟨v, rfl, hv⟩ := Option.bind_eq_some_iff.1 h
  cases v with
  | bool => cases hv; rfl
  | int => cases hv

theorem eq_int_of_bind {o : Option Value} {i : Int64} (h : o.bind Value.int? = some i) :
    o = some (.int i) := by
  obtain ⟨v, rfl, hv⟩ := Option.bind_eq_some_iff.1 h
  cases v with
  | bool => cases hv
  | int => cases hv; rfl

/-- A 64-bit evaluation is right about a value, if it says anything. -/
def Approximates (o : Option Value) (v : SmtValue) : Prop := ∀ a, o = some a → v = ofValue a

theorem Approximates.of_bool {o : Option Value} {p : Bool} (h : Approximates o (.bool p)) :
    ∀ a, o = some a → some (Value.bool p) = some a := by
  intro a ha
  have heq : ofValue (.bool p) = ofValue a := h a ha
  rw [SmtValue.ofValue_inj.1 heq]

theorem Connective.exact_of_join {op : Connective} {o o' : Option Value} {v w : SmtValue}
    (hv : Approximates o v) (hw : Approximates o' w) {b b' : Bool} (h : op.join o o' = some b)
    (hexact : op.exact v w = some b') : b' = b := by
  cases op with
  | equals | notEquals =>
    cases o with
    | none => cases h
    | some a =>
      cases o' with
      | none => cases h
      | some a' =>
        rw [hv a rfl, hw a' rfl] at hexact
        simp only [exact, Option.some.injEq, ne_eq, SmtValue.ofValue_inj] at hexact
        simp only [join, Option.some.injEq, ne_eq] at h
        exact hexact.symm.trans h
  | implies | iff =>
    -- both operands are truth values, and knowing them does not change what was known
    cases v with
    | int => cases hexact
    | bool p =>
      cases w with
      | int => cases hexact
      | bool q =>
        have hknown := Connective.join_mono _ hv.of_bool hw.of_bool h
        revert hexact hknown
        cases p <;> cases q <;> cases b <;> cases b' <;> decide

theorem Relation.exact_toInt (op : Relation) (i j : Int64) :
    op.exact i.toInt j.toInt = op.holds i j := by
  cases op <;> simp [exact, holds, Int64.lt_iff_toInt_lt, Int64.le_iff_toInt_le]

theorem Junction.exact_of_join {op : Junction} {os : List (Option Bool)} {bs : List Bool}
    (hmem : ∀ b, some b ∈ os → b ∈ bs) (hfrom : ∀ b ∈ bs, ∃ o ∈ os, ∀ c, o = some c → c = b)
    {b : Bool} (h : op.join os = some b) : op.exact bs = b := by
  by_cases hb : b = op.absorbing
  · rw [hb] at h ⊢
    have habsorbing := hmem _ (op.join_eq_absorbing_iff.1 h)
    cases op with
    | and => exact List.all_eq_false.2 ⟨false, habsorbing, by decide⟩
    | or => exact List.any_eq_true.2 ⟨true, habsorbing, rfl⟩
  · obtain rfl : b = !op.absorbing := Bool.eq_not.2 hb
    have hneutral : ∀ c ∈ bs, c = !op.absorbing := by
      intro c hc
      obtain ⟨o, ho, heq⟩ := hfrom c hc
      exact (heq _ (op.join_eq_neutral_iff.1 h o ho)).symm
    cases op with
    | and => exact List.all_eq_true.2 hneutral
    | or => exact List.any_eq_false.2 fun c hc => by simp [hneutral c hc, absorbing]

/-! ## Terms and their translations -/

namespace Term

/-- A term, its translation and its 64-bit evaluation agree on a value. -/
structure Means (ρ : String → SmtValue) (env : Env) (t : Term) (v : SmtValue) : Prop where
  sexp : t.toSexp.meaning ρ = some v
  term : t.meaning ρ = some v
  eval : Approximates (t.eval env) v

variable {ρ : String → SmtValue} {env : Env} {t l r c e : Term}

theorem means_lit (b : Bool) : (lit b).Means ρ env (.bool b) := by
  refine ⟨?_, rfl, fun a ha => ?_⟩
  · cases b <;> rfl
  · cases ha
    rfl

theorem means_int (i : Int64) : (int i).Means ρ env (.int i.toInt) := by
  refine ⟨Sexp.meaning_ofInt ρ i, rfl, fun a ha => ?_⟩
  cases ha
  rfl

theorem means_versioned {x : String} {k : Nat}
    (h : Approximates (env (versioned x k)) (ρ (versioned x k))) :
    (var (versioned x k)).Means ρ env (ρ (versioned x k)) := by
  have hne : ∀ s : String, '@' ∉ s.toList → versioned x k ≠ s := by
    intro s hs heq
    rw [← heq, toList_versioned] at hs
    simp at hs
  exact ⟨Sexp.meaning_sym (hne "true" (by decide)) (hne "false" (by decide)), rfl, h⟩

theorem Means.not {b : Bool} (h : t.Means ρ env (.bool b)) : (not t).Means ρ env (.bool !b) := by
  refine ⟨?_, ?_, fun a ha => ?_⟩
  · rw [toSexp, Sexp.meaning_app (Sexp.meanings_one h.sexp)]
    rfl
  · rw [meaning, h.term]
    rfl
  · obtain ⟨b', hb', rfl⟩ := Option.map_eq_some_iff.1 ha
    cases h.eval _ (eq_bool_of_bind hb')
    rfl

theorem Means.neg {i : Int} (h : t.Means ρ env (.int i)) : (neg t).Means ρ env (.int (-i)) := by
  refine ⟨?_, ?_, fun a ha => ?_⟩
  · rw [toSexp, Sexp.meaning_app (Sexp.meanings_one h.sexp)]
    rfl
  · rw [meaning, h.term]
    rfl
  · obtain ⟨j, hj, ha⟩ := Option.bind_eq_some_iff.1 ha
    obtain ⟨k, hk, rfl⟩ := Option.map_eq_some_iff.1 ha
    cases h.eval _ (eq_int_of_bind hj)
    rw [ofValue, toInt_of_checkedInt64 hk]

theorem meaning_binary {v w : SmtValue} (hl : l.Means ρ env v) (hr : r.Means ρ env w)
    (f : String) : (Sexp.app f [l.toSexp, r.toSexp]).meaning ρ = Sexp.applied f [v, w] :=
  Sexp.meaning_app (Sexp.meanings_two hl.sexp hr.sexp)

theorem Means.arith {i j : Int} (hl : l.Means ρ env (.int i)) (hr : r.Means ρ env (.int j))
    (op : Arith) : (arith op l r).Means ρ env (.int (op.apply i j)) := by
  refine ⟨?_, ?_, fun a ha => ?_⟩
  · cases op with
    | add =>
      rw [toSexp, meaning_binary hl hr]
      show some (SmtValue.int (0 + i + j)) = _
      rw [Int.zero_add, Arith.apply]
    | sub =>
      rw [toSexp, meaning_binary hl hr]
      rfl
    | mul =>
      rw [toSexp, meaning_binary hl hr]
      show some (SmtValue.int (1 * i * j)) = _
      rw [Int.one_mul, Arith.apply]
  · rw [meaning, hl.term, hr.term]
    rfl
  · rw [Term.eval] at ha
    split at ha
    · next m n hm hn =>
      obtain ⟨k, hk, rfl⟩ := Option.map_eq_some_iff.1 ha
      cases hl.eval _ (eq_int_of_bind hm)
      cases hr.eval _ (eq_int_of_bind hn)
      rw [ofValue, toInt_of_checkedInt64 hk]
    · cases ha

theorem Means.rel {i j : Int} (hl : l.Means ρ env (.int i)) (hr : r.Means ρ env (.int j))
    (op : Relation) : (rel op l r).Means ρ env (.bool (op.exact i j)) := by
  have hchained : ∀ p : Int → Int → Bool,
      some (SmtValue.bool (Sexp.chained p [i, j])) = some (.bool (p i j)) := by
    intro p
    rw [Sexp.chained, Sexp.chained, Bool.and_true]
    simp
  refine ⟨?_, ?_, fun a ha => ?_⟩
  · cases op <;> rw [toSexp, meaning_binary hl hr] <;> exact hchained _
  · rw [meaning, hl.term, hr.term]
    rfl
  · rw [Term.eval] at ha
    split at ha
    · next m n hm hn =>
      cases ha
      cases hl.eval _ (eq_int_of_bind hm)
      cases hr.eval _ (eq_int_of_bind hn)
      rw [ofValue, op.exact_toInt]
    · cases ha

/-- Equality and its negation take values of one sort, the other connectives truth values. -/
theorem Means.bin {v w : SmtValue} (hl : l.Means ρ env v) (hr : r.Means ρ env w)
    (op : Connective) (hsort : v.sort = w.sort) (hop : op.Takes v.sort) :
    ∃ b, (bin op l r).Means ρ env (.bool b) := by
  have halike : ∀ f, Sexp.onAlike f [v, w] = some (.bool (f [v, w])) := by
    intro f
    rw [Sexp.onAlike, if_pos ⟨Nat.le_refl 2, by simp [Sexp.chained, hsort]⟩]
  have hmeans : ∀ b, op.exact v w = some b → (Term.bin op l r).toSexp.meaning ρ = some (.bool b) →
      ∃ b, (Term.bin op l r).Means ρ env (.bool b) := by
    intro b hb hsexp
    refine ⟨b, hsexp, ?_, fun a ha => ?_⟩
    · rw [meaning, hl.term, hr.term, Option.bind_some, Option.bind_some, hb, Option.map_some]
    · obtain ⟨b', hb', rfl⟩ := Option.map_eq_some_iff.1 ha
      rw [Connective.exact_of_join hl.eval hr.eval hb' hb, ofValue]
  cases op with
  | equals =>
    refine hmeans _ rfl ?_
    rw [toSexp, meaning_binary hl hr]
    refine (halike _).trans ?_
    simp [Sexp.chained]
  | notEquals =>
    refine hmeans _ rfl ?_
    rw [toSexp, meaning_binary hl hr]
    show Sexp.onAlike (fun vs => vs.Nodup) [v, w] = _
    rw [halike]
    simp
  | implies =>
    obtain ⟨p, rfl⟩ := SmtValue.exists_bool hop
    obtain ⟨q, rfl⟩ := SmtValue.exists_bool (hsort.symm.trans hop)
    refine hmeans _ rfl ?_
    rw [toSexp, meaning_binary hl hr]
    rfl
  | iff =>
    obtain ⟨p, rfl⟩ := SmtValue.exists_bool hop
    obtain ⟨q, rfl⟩ := SmtValue.exists_bool (hsort.symm.trans hop)
    refine hmeans _ rfl ?_
    rw [toSexp, meaning_binary hl hr]
    refine (halike _).trans ?_
    simp [Sexp.chained]

theorem Means.ite {b : Bool} {v w : SmtValue} (hc : c.Means ρ env (.bool b))
    (ht : t.Means ρ env v) (he : e.Means ρ env w) (hsort : v.sort = w.sort) :
    (ite c t e).Means ρ env (if b then v else w) := by
  refine ⟨?_, ?_, fun a ha => ?_⟩
  · rw [toSexp_ite, Sexp.meaning_app (Sexp.meanings_three hc.sexp ht.sexp he.sexp)]
    exact if_pos hsort
  · rw [meaning_ite hc.term, ht.term, he.term]
    cases b <;> rfl
  · rw [Term.eval] at ha
    split at ha
    · next hb =>
      cases hc.eval _ (eq_bool_of_bind hb)
      exact ht.eval a ha
    · next hb =>
      cases hc.eval _ (eq_bool_of_bind hb)
      exact he.eval a ha
    · -- whatever the condition is, both branches have the same value
      split at ha
      · next a₁ a₂ ha₁ ha₂ =>
        split at ha
        · next heq =>
          cases ha
          rw [ht.eval _ ha₁, he.eval _ ha₂, ← heq, ite_self]
        · cases ha
      · cases ha

theorem exists_bools {ts : List Term} (h : ∀ t ∈ ts, ∃ b, t.Means ρ env (.bool b)) :
    ∃ bs, Sexp.meanings ρ (toSexpList ts) = some (bs.map .bool) ∧
      meaningBools ρ ts = some bs ∧ bs.length = ts.length ∧
      ∀ b, b ∈ bs ↔ ∃ t ∈ ts, t.Means ρ env (.bool b) := by
  induction ts with
  | nil => exact ⟨[], rfl, rfl, rfl, by simp⟩
  | cons t ts ih =>
    obtain ⟨⟨b, hb⟩, hts⟩ := List.forall_mem_cons.1 h
    obtain ⟨bs, hsexps, hterms, hlength, hmem⟩ := ih hts
    have hunique : ∀ b', t.Means ρ env (.bool b') ↔ b' = b := by
      intro b'
      refine ⟨fun hb' => ?_, fun heq => heq ▸ hb⟩
      have heq := hb'.term.symm.trans hb.term
      cases heq
      rfl
    refine ⟨b :: bs, ?_, ?_, congrArg (· + 1) hlength, fun b' => ?_⟩
    · rw [toSexpList, Sexp.meanings, hb.sexp, hsexps]
      rfl
    · rw [meaningBools, hb.term, hterms]
      rfl
    · simp [hmem, hunique]

theorem onBools_map (f : List Bool → Bool) {bs : List Bool} (h : 2 ≤ bs.length) :
    Sexp.onBools f (bs.map .bool) = some (.bool (f bs)) := by
  rw [Sexp.onBools, List.length_map, if_pos h, SmtValue.mapM_bool?, Option.map_some]

/-- A junction of fewer than two operands is translated to a constant or to its operand. -/
theorem means_nary (op : Junction) {ts : List Term}
    (h : ∀ t ∈ ts, ∃ b, t.Means ρ env (.bool b)) : ∃ b, (nary op ts).Means ρ env (.bool b) := by
  obtain ⟨bs, hsexps, hterms, hlength, hmem⟩ := exists_bools h
  refine ⟨op.exact bs, ?_, by rw [meaning, hterms, Option.map_some], fun a ha => ?_⟩
  · cases ts with
    | nil =>
      obtain rfl := List.length_eq_zero_iff.1 hlength
      cases op <;> rfl
    | cons t ts =>
      cases ts with
      | nil =>
        obtain ⟨b, rfl⟩ := List.length_eq_one_iff.1 hlength
        obtain ⟨t', ht', hb⟩ := (hmem b).1 (List.mem_singleton.2 rfl)
        obtain rfl := List.mem_singleton.1 ht'
        rw [toSexp, hb.sexp]
        cases op <;> simp [Junction.exact]
      | cons u ts =>
        have htwo : 2 ≤ bs.length := by
          rw [hlength]
          simp
        cases op with
        | and => exact (Sexp.meaning_app hsexps).trans (onBools_map _ htwo)
        | or => exact (Sexp.meaning_app hsexps).trans (onBools_map _ htwo)
  · obtain ⟨b, hb, rfl⟩ := Option.map_eq_some_iff.1 ha
    rw [evalBools_eq_map] at hb
    rw [ofValue, Junction.exact_of_join (fun b' hb' => ?_) (fun b' hb' => ?_) hb]
    · obtain ⟨t, ht, heval⟩ := List.mem_map.1 hb'
      obtain ⟨b'', hb''⟩ := h t ht
      cases hb''.eval _ (eq_bool_of_bind heval)
      exact (hmem b').2 ⟨t, ht, hb''⟩
    · obtain ⟨t, ht, hmeans⟩ := (hmem b').1 hb'
      refine ⟨_, List.mem_map_of_mem ht, fun c hc => ?_⟩
      cases hmeans.eval _ (eq_bool_of_bind hc)
      rfl

/-- A well-sorted term over versioned names has a value of its sort. -/
theorem HasSort.exists_means {σ : String → Option VarSort} {sort : VarSort}
    (h : t.HasSort σ sort) (hρ : ∀ x s, σ x = some s → (ρ x).sort = s)
    (hnames : ∀ x ∈ t.occurrences, ∃ y k, x = versioned y k)
    (henv : ∀ x, Approximates (env x) (ρ x)) : ∃ v, v.sort = sort ∧ t.Means ρ env v := by
  induction h with
  | lit b => exact ⟨.bool b, rfl, means_lit b⟩
  | int i => exact ⟨.int i.toInt, rfl, means_int i⟩
  | var hx =>
    obtain ⟨y, k, rfl⟩ := hnames _ (List.mem_singleton.2 rfl)
    exact ⟨_, hρ _ _ hx, means_versioned (henv _)⟩
  | not _ ih =>
    obtain ⟨v, hv, hmeans⟩ := ih hnames
    obtain ⟨b, rfl⟩ := SmtValue.exists_bool hv
    exact ⟨_, rfl, hmeans.not⟩
  | neg _ ih =>
    obtain ⟨v, hv, hmeans⟩ := ih hnames
    obtain ⟨i, rfl⟩ := SmtValue.exists_int hv
    exact ⟨_, rfl, hmeans.neg⟩
  | bin op hop _ _ ihl ihr =>
    rw [occurrences, List.forall_mem_append] at hnames
    obtain ⟨v, rfl, hl⟩ := ihl hnames.1
    obtain ⟨w, hw, hr⟩ := ihr hnames.2
    obtain ⟨b, hmeans⟩ := hl.bin hr op hw.symm hop
    exact ⟨_, rfl, hmeans⟩
  | arith op _ _ ihl ihr =>
    rw [occurrences, List.forall_mem_append] at hnames
    obtain ⟨v, hv, hl⟩ := ihl hnames.1
    obtain ⟨w, hw, hr⟩ := ihr hnames.2
    obtain ⟨i, rfl⟩ := SmtValue.exists_int hv
    obtain ⟨j, rfl⟩ := SmtValue.exists_int hw
    exact ⟨_, rfl, hl.arith hr op⟩
  | rel op _ _ ihl ihr =>
    rw [occurrences, List.forall_mem_append] at hnames
    obtain ⟨v, hv, hl⟩ := ihl hnames.1
    obtain ⟨w, hw, hr⟩ := ihr hnames.2
    obtain ⟨i, rfl⟩ := SmtValue.exists_int hv
    obtain ⟨j, rfl⟩ := SmtValue.exists_int hw
    exact ⟨_, rfl, hl.rel hr op⟩
  | nary op _ ih =>
    refine (means_nary op fun t ht => ?_).elim fun b hmeans => ⟨.bool b, rfl, hmeans⟩
    obtain ⟨v, hv, hmeans⟩ := ih t ht fun x hx => hnames x (mem_occurrencesList.2 ⟨t, ht, hx⟩)
    obtain ⟨b, rfl⟩ := SmtValue.exists_bool hv
    exact ⟨b, hmeans⟩
  | ite _ _ _ ihc iht ihe =>
    rw [occurrences, List.forall_mem_append, List.forall_mem_append] at hnames
    obtain ⟨u, hu, hc⟩ := ihc hnames.1.1
    obtain ⟨v, hv, ht⟩ := iht hnames.1.2
    obtain ⟨w, hw, he⟩ := ihe hnames.2
    obtain ⟨b, rfl⟩ := SmtValue.exists_bool hu
    refine ⟨_, ?_, hc.ite ht he (hv.trans hw.symm)⟩
    cases b
    · exact hw
    · exact hv

/-- A well-sorted term over versioned names and its translation have the same value, of the term's
sort, under every assignment. The evaluation never gives another one, even if it knows only some of
the variables. -/
theorem translation_keeps_meaning {σ : String → Option VarSort} {sort : VarSort}
    (ht : t.HasSort σ sort) (hnames : ∀ x ∈ t.vars, ∃ y k, x = versioned y k)
    (hρ : ∀ x s, σ x = some s → (ρ x).sort = s) :
    ∃ v, v.sort = sort ∧ t.toSexp.meaning ρ = some v ∧ t.meaning ρ = some v ∧
      ∀ env : Env, (∀ x, Approximates (env x) (ρ x)) → Approximates (t.eval env) v := by
  have hoccurrences : ∀ x ∈ t.occurrences, ∃ y k, x = versioned y k :=
    fun x hx => hnames x (mem_vars_iff.2 hx)
  have hnothing : ∀ x, Approximates ((fun _ => none : Env) x) (ρ x) := by
    intro x a ha
    cases ha
  obtain ⟨v, hv, hmeans⟩ := ht.exists_means hρ hoccurrences hnothing
  refine ⟨v, hv, hmeans.sexp, hmeans.term, fun env henv => ?_⟩
  obtain ⟨w, _, hmeans'⟩ := ht.exists_means hρ hoccurrences henv
  have heq := hmeans'.term.symm.trans hmeans.term
  cases heq
  exact hmeans'.eval

def squareAbove : Term :=
  nary .and [nary .or [var "b@1"], bin .notEquals (nary .or []) (var "b@1"),
    bin .iff (var "b@1")
      (rel .lt (arith .sub (int (-3)) (neg (var "x@0"))) (arith .mul (var "x@0") (var "x@0")))]

/-- The flag is set, and the variable is the first integer without a 64-bit value. -/
def beyondWord (x : String) : SmtValue :=
  if x = "b@1" then .bool true else .int 9223372036854775808

theorem hasSort_squareAbove : squareAbove.HasSort (fun x => some (beyondWord x).sort) .bool := by
  have hb : (var "b@1").HasSort (fun x => some (beyondWord x).sort) .bool := .var rfl
  have hx : (var "x@0").HasSort (fun x => some (beyondWord x).sort) .int := .var rfl
  have hflag : (nary .or [var "b@1"]).HasSort (fun x => some (beyondWord x).sort) .bool :=
    .nary .or (List.forall_mem_singleton.2 hb)
  have hset := HasSort.bin .notEquals trivial (.nary .or (List.forall_mem_nil _)) hb
  have habove := HasSort.rel .lt (.arith .sub (.int (-3)) (.neg hx)) (.arith .mul hx hx)
  refine .nary .and (List.forall_mem_cons.2 ⟨hflag, List.forall_mem_cons.2 ⟨hset, ?_⟩⟩)
  exact List.forall_mem_singleton.2 (.bin .iff rfl hb habove)

theorem squareAbove_translated :
    squareAbove.toSexp.print = "(and b@1 (distinct false b@1) " ++
      "(= b@1 (< (- (- 3) (- x@0)) (* x@0 x@0))))" ∧
    squareAbove.toSexp.meaning beyondWord = some (.bool true) := by
  refine ⟨by decide +kernel, ?_⟩
  have hnames : ∀ x ∈ squareAbove.vars, ∃ y k, x = versioned y k := by
    intro x hx
    have hcases : x = "b@1" ∨ x = "x@0" := by
      simpa [mem_vars_iff, squareAbove, occurrences, occurrencesList] using hx
    obtain rfl | rfl := hcases
    · exact ⟨"b", 1, by decide +kernel⟩
    · exact ⟨"x", 0, by decide +kernel⟩
  have hsorts : ∀ x s, some (beyondWord x).sort = some s → (beyondWord x).sort = s :=
    fun x s => Option.some.inj
  obtain ⟨v, -, hsexp, hterm, -⟩ := translation_keeps_meaning hasSort_squareAbove hnames hsorts
  rw [hsexp, ← hterm]
  rfl

end Term

end LoopInvariant
