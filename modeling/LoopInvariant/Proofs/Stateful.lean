import LoopInvariant.Proofs.Except
/-!
# Actions on a state

An action may fail and leaves a state in any case. How it goes on after its first part, what holds
of the state whatever its result, and what it adds to a log that the state keeps.
-/

namespace LoopInvariant.Stateful

variable {ε σ α β : Type} {a : ExceptT ε (StateM σ) α} {f : α → ExceptT ε (StateM σ) β} {s s' : σ}

theorem bind_of_ok {v : α} (h : a s = (.ok v, s')) : (a >>= f) s = f v s' := by
  change (ExceptT.bindCont f (a s).1 : StateM σ _) (a s).2 = _
  rw [h]
  rfl

theorem bind_of_error {e : ε} (h : a s = (.error e, s')) :
    (a >>= f) s = (.error e, s') := by
  change (ExceptT.bindCont f (a s).1 : StateM σ _) (a s).2 = _
  rw [h]
  rfl

theorem map_run (g : α → β) (a : ExceptT ε (StateM σ) α) (s : σ) :
    (g <$> a) s = ((a s).1.map g, (a s).2) := by
  rw [← bind_pure_comp]
  rcases h : a s with ⟨_ | v, s'⟩
  · exact bind_of_error h
  · exact bind_of_ok h

theorem exists_of_bind {b : β} (h : ((a >>= f) s).1 = .ok b) :
    ∃ v, (a s).1 = .ok v ∧ (f v (a s).2).1 = .ok b := by
  rcases ha : a s with ⟨e | v, s'⟩
  · rw [bind_of_error ha] at h
    cases h
  · rw [bind_of_ok ha] at h
    exact ⟨v, rfl, h⟩

theorem exists_of_bind_eq {b : β} (h : (a >>= f) s = (.ok b, s')) :
    ∃ v u, a s = (.ok v, u) ∧ f v u = (.ok b, s') := by
  rcases ha : a s with ⟨e | v, u⟩
  · rw [bind_of_error ha] at h
    cases h
  · rw [bind_of_ok ha] at h
    exact ⟨v, u, rfl, h⟩

variable {P : σ → Prop}

/-- An action that keeps a property of the state, whatever its result. -/
def Keeps (P : σ → Prop) (a : ExceptT ε (StateM σ) α) : Prop := ∀ s, P s → P (a s).2

theorem keeps_pure (v : α) : Keeps P (pure v : ExceptT ε (StateM σ) α) := fun _ hs => hs

theorem keeps_throw (e : ε) : Keeps P (throw e : ExceptT ε (StateM σ) α) := fun _ hs => hs

theorem Keeps.map (ha : Keeps P a) (g : α → β) : Keeps P (g <$> a) := by
  intro s hs
  rw [map_run]
  exact ha s hs

/-- The first part brings something about, whatever its result, and the rest makes more of it. -/
theorem bind_of_leads {Q : σ → Prop} (hPQ : ∀ s, P s → Q s) (ha : P (a s).2)
    (hf : ∀ v s, P s → Q (f v s).2) : Q ((a >>= f) s).2 := by
  rcases h : a s with ⟨e | v, s'⟩
  · rw [h] at ha
    rw [bind_of_error h]
    exact hPQ s' ha
  · rw [h] at ha
    rw [bind_of_ok h]
    exact hf v s' ha

theorem Keeps.bind (ha : Keeps P a) (hf : ∀ v, Keeps P (f v)) : Keeps P (a >>= f) :=
  fun s hs => bind_of_leads (fun _ hs => hs) (ha s hs) hf

theorem keeps_forM {g : α → ExceptT ε (StateM σ) PUnit} (hg : ∀ v, Keeps P (g v)) (vs : List α) :
    Keeps P (vs.forM g) := by
  induction vs with
  | nil => exact keeps_pure ()
  | cons v vs ih => exact (hg v).bind fun _ => ih

/-! ## Logs -/

variable {γ : Type} {log : σ → List γ} {kind : γ → Prop} {least : α → List γ}

/-- An action that adds only entries of some kind to a log, and certain ones if it succeeds. -/
def Emits (log : σ → List γ) (kind : γ → Prop) (least : α → List γ) (a : ExceptT ε (StateM σ) α) :
    Prop :=
  ∀ s, ∃ new, log (a s).2 = log s ++ new ∧ (∀ y ∈ new, kind y) ∧
    ∀ v, (a s).1 = .ok v → (least v).Sublist new

theorem emits_nothing (hlog : ∀ s, log (a s).2 = log s)
    (hleast : ∀ s v, (a s).1 = .ok v → least v = []) : Emits log kind least a := by
  refine fun s => ⟨[], by rw [hlog, List.append_nil], fun y hy => ?_, fun v hv => ?_⟩
  · cases hy
  · simp only [hleast s v hv, List.nil_sublist]

theorem Emits.mono (ha : Emits log kind least a) {kind' : γ → Prop}
    (hkind : ∀ y, kind y → kind' y) : Emits log kind' least a := by
  intro s
  obtain ⟨new, hnew, hall, hsome⟩ := ha s
  exact ⟨new, hnew, fun y hy => hkind y (hall y hy), hsome⟩

theorem Emits.bind {d : α → β → List γ} {e : β → List γ} (ha : Emits log kind least a)
    (hf : ∀ v, Emits log kind (d v) (f v)) (he : ∀ v w, (e w).Sublist (least v ++ d v w)) :
    Emits log kind e (a >>= f) := by
  intro s
  obtain ⟨new, hnew, hall, hsome⟩ := ha s
  rcases h : a s with ⟨err | v, s'⟩
  · rw [h] at hnew
    rw [bind_of_error h]
    exact ⟨new, hnew, hall, fun w hw => by cases hw⟩
  · rw [h] at hnew hsome
    rw [bind_of_ok h]
    obtain ⟨more, hmore, hall', hsome'⟩ := hf v s'
    refine ⟨new ++ more, ?_, fun y hy => ?_, fun w hw => ?_⟩
    · rw [hmore, hnew, List.append_assoc]
    · exact (List.mem_append.1 hy).elim (hall y) (hall' y)
    · exact (he v w).trans ((hsome v rfl).append (hsome' w hw))

theorem Emits.map {g : α → β} {least : β → List γ} (ha : Emits log kind (fun v => least (g v)) a) :
    Emits log kind least (g <$> a) := by
  intro s
  obtain ⟨new, hnew, hall, hsome⟩ := ha s
  rw [map_run]
  refine ⟨new, hnew, hall, fun w hw => ?_⟩
  obtain ⟨v, hv, rfl⟩ := map_eq_ok.1 hw
  exact hsome v hv

theorem emits_forM {g : α → ExceptT ε (StateM σ) PUnit} {vs : List α}
    (hg : ∀ v ∈ vs, Emits log kind (fun _ => []) (g v)) :
    Emits log kind (fun _ => []) (vs.forM g) := by
  induction vs with
  | nil => exact emits_nothing (fun _ => rfl) fun _ _ _ => rfl
  | cons v vs ih =>
    obtain ⟨hv, hvs⟩ := List.forall_mem_cons.1 hg
    exact hv.bind (fun _ => ih hvs) fun _ _ => List.Sublist.refl _

end LoopInvariant.Stateful
