import LoopInvariant.Proofs.LeastLabels
/-!
# Guesses and universal labels

A guess registers datapoints and common parts of them with what is known, and labels run between all
of these. None of them is universal unless it was deducible before. The labels that datapoints would
take over, registered or not, are closed under the rules: what a constraint asks for is registered,
and a registered datapoint has every label that it would take over.
-/

namespace LoopInvariant

namespace Datapoint

variable {d e f : Datapoint} {p : Bool}

theorem inherits_refl (d : Datapoint) (p : Bool) : d.inherits p d = true := by
  cases p with
  | true => exact d.subset_refl
  | false => exact d.subset_refl

theorem inherits_trans (h : d.inherits p e = true) (h' : e.inherits p f = true) :
    d.inherits p f = true := by
  cases p with
  | true => exact subset_trans h h'
  | false => exact subset_trans h' h

end Datapoint

theorem Constraint.Asks.mem_datapoints {c : Constraint} {d : Datapoint} {p : Bool}
    (h : c.Asks d p) : d ∈ c.datapoints := by
  cases p with
  | true => exact Knowledge.source_mem_datapoints h
  | false => exact Knowledge.target_mem_datapoints h

namespace Knowledge

variable {k next : Knowledge} {sure : Bool} {d : Datapoint} {p : Bool}

/-- A label at a level that a datapoint has if it is registered, and would take over if it were. -/
def WouldHave (k : Knowledge) (sure : Bool) (d : Datapoint) (p : Bool) : Prop :=
  ∃ e, d.inherits p e = true ∧ k.HasLabel sure e p

theorem HasLabel.wouldHave (h : k.HasLabel sure d p) : k.WouldHave sure d p :=
  ⟨d, d.inherits_refl p, h⟩

theorem WouldHave.hasLabel (h : k.WouldHave sure d p) (hk : k.Reachable) (hd : d ∈ k.datapoints) :
    k.HasLabel sure d p := by
  obtain ⟨e, hinherits, he⟩ := h
  exact (hk.drawn.inherited he).resolve_left List.not_mem_nil d hd hinherits

/-- The rules give nothing new, wherever else datapoints are registered. -/
theorem Reachable.wouldHave_of_follows {points : Datapoint → Prop} (hk : k.Reachable)
    (h : Follows (k.Counts sure) points (k.WouldHave sure) d p) : k.WouldHave sure d p := by
  cases h with
  | forced hc hforces =>
    apply HasLabel.wouldHave
    apply hk.obeyed hc
    apply hforces.imp
    intro e q hasks he
    exact he.hasLabel hk (hk.saturated.mentioned _ hc.1 e hasks.mem_datapoints)
  | inherited _ hinherits he =>
    obtain ⟨f, hef, hf⟩ := he
    exact ⟨f, Datapoint.inherits_trans hinherits hef, hf⟩

/-- Constraints that do not count at a level add no label at that level to what is registered. -/
theorem Reachable.hasLabel_iff_of_counts (hk : k.Reachable) (hnext : next.Reachable)
    (hsub : ∀ c ∈ k.constraints, c ∈ next.constraints)
    (hcounts : ∀ c, next.Counts sure c → k.Counts sure c) (hd : d ∈ k.datapoints) :
    next.HasLabel sure d p ↔ k.HasLabel sure d p := by
  constructor
  · intro hlabel
    have hwithin : next.Within sure (k.Counts sure) (fun _ => True) (k.WouldHave sure) :=
      Reachable.within (fun d p => hk.wouldHave_of_follows) (fun _ _ _ _ _ _ => trivial) hnext
        hcounts fun _ _ => trivial
    exact (hwithin.labels d p hlabel).hasLabel hk hd
  · exact hk.hasLabel_mono hnext hsub

theorem Reachable.isDecided_assume {cs : List Constraint} (hk : k.Reachable)
    (hcs : ∀ c ∈ cs, c.isAssumed = true) (h : k.assume cs = .ok next) (hd : d ∈ k.datapoints) :
    next.isDecided p d = k.isDecided p d := by
  obtain ⟨hnext, hmem⟩ := hk.assume h
  rw [Bool.eq_iff_iff, isDecided_iff_hasLabel, isDecided_iff_hasLabel]
  refine hk.hasLabel_iff_of_counts hnext (fun c hc => (hmem c).2 (.inl hc)) ?_ hd
  intro c hc
  refine ⟨((hmem c).1 hc.1).resolve_right fun hguess => ?_, hc.2⟩
  exact Bool.false_ne_true ((hc.2 rfl).symm.trans (hcs c hguess))

theorem isSettled_congr {c : Constraint}
    (h : ∀ d ∈ c.datapoints, ∀ p, next.isDecided p d = k.isDecided p d) :
    next.isSettled c = k.isSettled c := by
  rw [isSettled, isSettled]
  congr 1
  · cases htarget : c.target with
    | none => rfl
    | some t => exact h t (target_mem_datapoints htarget) true
  · rw [Bool.eq_iff_iff, List.any_eq_true, List.any_eq_true]
    refine exists_congr fun s => and_congr_right fun hs => ?_
    rw [h s (source_mem_datapoints hs)]

end Knowledge

open Knowledge

/-- Guesses that datapoints lie inside, or that they do not, change no universal label of a datapoint
that was registered. So they settle no constraint that was there. -/
theorem guesses_keep_universal_labels {k next : Knowledge} {ds : List Datapoint} (hk : k.Reachable)
    (h : k.withTrue ds = .ok next ∨ k.withFalse ds = .ok next) :
    (∀ d ∈ k.datapoints, ∀ p, next.isDecided p d = k.isDecided p d) ∧
      ∀ c ∈ k.constraints, next.isSettled c = k.isSettled c := by
  obtain ⟨cs, hcs, hassume⟩ : ∃ cs : List Constraint,
      (∀ c ∈ cs, c.isAssumed = true) ∧ k.assume cs = .ok next := by
    cases h with
    | inl htrue => exact ⟨_, List.forall_mem_map.2 fun _ _ => rfl, htrue⟩
    | inr hfalse => exact ⟨_, List.forall_mem_map.2 fun _ _ => rfl, hfalse⟩
  have hkept : ∀ d ∈ k.datapoints, ∀ p, next.isDecided p d = k.isDecided p d :=
    fun d hd p => hk.isDecided_assume hcs hassume hd
  refine ⟨hkept, fun c hc => isSettled_congr fun d hd => ?_⟩
  exact hkept d (hk.saturated.mentioned c hc d hd)

def reachedAndStep : Knowledge :=
  (insertAll {} [⟨[], some ⟨0, .ofList [("x", .int 1)]⟩, .clause 0⟩,
    ⟨[⟨0, .ofList [("y", .int 3)]⟩], some ⟨0, .ofList [("x", .int 2)]⟩, .clause 1⟩]).2

/-- A guess labels the states after the step and registers six datapoints, and the step is not
settled by it. -/
theorem reachedAndStep_guessed :
    ∃ next, reachedAndStep.withTrue [⟨0, .ofList [("y", .int 3)]⟩, ⟨0, .ofList [("z", .int 0)]⟩] =
        .ok next ∧
      next.points.size = reachedAndStep.points.size + 6 ∧
      next.isTrue ⟨0, .ofList [("x", .int 2)]⟩ = true ∧
      next.isDecided true ⟨0, .ofList [("x", .int 2)]⟩ = false ∧
      next.isSettled ⟨[⟨0, .ofList [("y", .int 3)]⟩], some ⟨0, .ofList [("x", .int 2)]⟩, .clause 1⟩ =
        false := by
  have hk : reachedAndStep.Reachable := (Reachable.empty.insertAll_snd _).1
  have hrun : (reachedAndStep.withTrue [⟨0, .ofList [("y", .int 3)]⟩,
      ⟨0, .ofList [("z", .int 0)]⟩]).toOption.map (fun next =>
        (next.points.size, next.isTrue ⟨0, .ofList [("x", .int 2)]⟩)) =
      some (reachedAndStep.points.size + 6, true) := by decide +kernel
  obtain ⟨next, hnext, hfacts⟩ := Option.map_eq_some_iff.1 hrun
  have hnext := toOption_eq_some_iff.1 hnext
  obtain ⟨hsize, htrue⟩ := Prod.mk.inj hfacts
  obtain ⟨hdecided, hsettled⟩ := guesses_keep_universal_labels hk (.inl hnext)
  refine ⟨next, hnext, hsize, htrue, (hdecided _ ?_ true).trans ?_, (hsettled _ ?_).trans ?_⟩
  · decide +kernel
  · decide +kernel
  · decide +kernel
  · decide +kernel

end LoopInvariant
