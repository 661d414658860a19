import Mathlib.Tactic.Common
/-!
# Computations that may fail

How a success takes apart a sequence of computations, and what a traversal gives.
-/

namespace LoopInvariant

variable {ε α β : Type}

theorem bind_eq_ok {x : Except ε α} {f : α → Except ε β} {b : β} :
    x >>= f = .ok b ↔ ∃ a, x = .ok a ∧ f a = .ok b := by
  cases x with
  | error e => simp [bind, Except.bind]
  | ok a => simp [bind, Except.bind]

theorem bind_eq_error {x : Except ε α} {f : α → Except ε β} {e : ε} :
    x >>= f = .error e ↔ x = .error e ∨ ∃ a, x = .ok a ∧ f a = .error e := by
  cases x with
  | error e' => simp [bind, Except.bind]
  | ok a => simp [bind, Except.bind]

theorem map_eq_ok {x : Except ε α} {f : α → β} {b : β} :
    x.map f = .ok b ↔ ∃ a, x = .ok a ∧ f a = b := by
  cases x with
  | error e => simp [Except.map]
  | ok a => simp [Except.map]

theorem map_eq_error {x : Except ε α} {f : α → β} {e : ε} :
    x.map f = .error e ↔ x = .error e := by
  cases x with
  | error e' => simp [Except.map]
  | ok a => simp [Except.map]

theorem toOption_eq_some_iff {x : Except ε α} {a : α} : x.toOption = some a ↔ x = .ok a := by
  cases x with
  | error e => simp [Except.toOption]
  | ok b => simp [Except.toOption]

theorem isOk_eq_false_iff {x : Except ε α} : x.isOk = false ↔ ∃ e, x = .error e := by
  cases x with
  | error e => simp [Except.isOk, Except.toBool]
  | ok a => simp [Except.isOk, Except.toBool]

theorem mapM_eq_ok {f : α → Except ε β} {xs : List α} {ys : List β} :
    xs.mapM f = .ok ys ↔ xs.map f = ys.map .ok := by
  induction xs generalizing ys with
  | nil => cases ys <;> simp [pure, Except.pure]
  | cons x xs ih =>
    rw [List.mapM_cons, bind_eq_ok, List.map_cons]
    simp only [bind_eq_ok, ih]
    constructor
    · rintro ⟨y, hy, zs, hzs, h⟩
      cases h
      rw [hy, hzs, List.map_cons]
    · intro h
      cases ys with
      | nil => cases h
      | cons y zs =>
        rw [List.map_cons, List.cons.injEq] at h
        exact ⟨y, h.1, zs, h.2, rfl⟩

theorem mapM_congr {f g : α → Except ε β} {xs : List α} (h : ∀ x ∈ xs, f x = g x) :
    xs.mapM f = xs.mapM g := by
  induction xs with
  | nil => rfl
  | cons x xs ih =>
    obtain ⟨hx, hxs⟩ := List.forall_mem_cons.1 h
    rw [List.mapM_cons, List.mapM_cons, hx, ih hxs]

theorem exists_mapM_eq_ok {f : α → Except ε β} {xs : List α} :
    (∃ ys, xs.mapM f = .ok ys) ↔ ∀ x ∈ xs, ∃ y, f x = .ok y := by
  simp only [mapM_eq_ok]
  constructor
  · rintro ⟨ys, h⟩ x hx
    obtain ⟨y, -, hy⟩ := List.mem_map.1 (h ▸ List.mem_map_of_mem hx)
    exact ⟨y, hy.symm⟩
  · intro h
    induction xs with
    | nil => exact ⟨[], rfl⟩
    | cons x xs ih =>
      obtain ⟨⟨y, hy⟩, hxs⟩ := List.forall_mem_cons.1 h
      obtain ⟨ys, hys⟩ := ih hxs
      exact ⟨y :: ys, by rw [List.map_cons, hy, hys, List.map_cons]⟩

theorem mem_of_mapM_eq_ok {f : α → Except ε β} {xs : List α} {ys : List β}
    (h : xs.mapM f = .ok ys) :
    (∀ y, y ∈ ys ↔ ∃ x ∈ xs, f x = .ok y) ∧ ∀ x ∈ xs, ∃ y, f x = .ok y := by
  refine ⟨fun y => ?_, exists_mapM_eq_ok.1 ⟨ys, h⟩⟩
  rw [← List.mem_map, mapM_eq_ok.1 h]
  simp

theorem getElem?_of_mapM_eq_ok {f : α → Except ε β} {xs : List α} {ys : List β}
    (h : xs.mapM f = .ok ys) {i : Nat} {y : β} :
    ys[i]? = some y ↔ ∃ x, xs[i]? = some x ∧ f x = .ok y := by
  have hi : xs[i]?.map f = ys[i]?.map .ok := by
    rw [← List.getElem?_map, mapM_eq_ok.1 h, List.getElem?_map]
  rw [← Option.map_eq_some_iff, hi]
  simp

/-- What undoes each result of a traversal undoes the traversal. -/
theorem map_eq_of_mapM_eq_ok {f : α → Except ε β} {g : β → α} (hg : ∀ x y, f x = .ok y → g y = x)
    {xs : List α} {ys : List β} (h : xs.mapM f = .ok ys) : ys.map g = xs := by
  have hlength : ys.length = xs.length := by
    simpa using (congrArg List.length (mapM_eq_ok.1 h)).symm
  apply List.ext_getElem?
  intro i
  rw [List.getElem?_map]
  cases hy : ys[i]? with
  | none =>
    rw [List.getElem?_eq_none_iff, hlength] at hy
    rw [List.getElem?_eq_none hy, Option.map_none]
  | some y =>
    obtain ⟨x, hx, hxy⟩ := (getElem?_of_mapM_eq_ok h).1 hy
    rw [hx, Option.map_some, hg x y hxy]

theorem exists_foldlM_eq_ok {f : β → α → Except ε β} {P : β → Prop}
    (h : ∀ b a, P b → ∃ b', f b a = .ok b' ∧ P b') (xs : List α) {b : β} (hb : P b) :
    ∃ b', xs.foldlM f b = .ok b' ∧ P b' := by
  induction xs generalizing b with
  | nil => exact ⟨b, rfl, hb⟩
  | cons x xs ih =>
    obtain ⟨b', hstep, hb'⟩ := h b x hb
    rw [List.foldlM_cons, hstep]
    exact ih hb'

theorem of_foldlM_eq_ok {f : β → α → Except ε β} {P : β → Prop} {xs : List α}
    (h : ∀ b, ∀ a ∈ xs, ∀ b', P b → f b a = .ok b' → P b') {b b' : β} (hb : P b)
    (heq : xs.foldlM f b = .ok b') : P b' := by
  induction xs generalizing b with
  | nil =>
    cases heq
    exact hb
  | cons x xs ih =>
    rw [List.foldlM_cons, bind_eq_ok] at heq
    obtain ⟨b₁, hstep, heq⟩ := heq
    refine ih (fun b a ha => h b a (List.mem_cons_of_mem _ ha)) ?_ heq
    exact h b x List.mem_cons_self b₁ hb hstep

theorem foldlM_eq_error {f : β → α → Except ε β} {xs : List α} {b : β} {e : ε} :
    xs.foldlM f b = .error e ↔
      ∃ ys x zs b', xs = ys ++ x :: zs ∧ ys.foldlM f b = .ok b' ∧ f b' x = .error e := by
  constructor
  · intro h
    induction xs generalizing b with
    | nil => cases h
    | cons x xs ih =>
      rw [List.foldlM_cons, bind_eq_error] at h
      rcases h with h | ⟨b₁, hstep, h⟩
      · exact ⟨[], x, xs, b, rfl, rfl, h⟩
      · obtain ⟨ys, y, zs, b', rfl, hys, hy⟩ := ih h
        refine ⟨x :: ys, y, zs, b', rfl, ?_, hy⟩
        rw [List.foldlM_cons, bind_eq_ok]
        exact ⟨b₁, hstep, hys⟩
  · rintro ⟨ys, x, zs, b', rfl, hys, hx⟩
    rw [List.foldlM_append, bind_eq_error]
    refine .inr ⟨b', hys, ?_⟩
    rw [List.foldlM_cons, bind_eq_error]
    exact .inl hx

end LoopInvariant
