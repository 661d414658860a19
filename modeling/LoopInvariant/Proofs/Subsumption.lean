import LoopInvariant.Proofs.LeastLabels
/-!
# The index of registered datapoints

Datapoints are registered in a loop over those that are pending: one that is new is related to the
others that are known by then, and its common parts with them become pending. The loop ends whatever
is known, since a common part fixes more variables than what it is a part of, and no variables but
those that were fixed before. Every datapoint is then related to all others.
-/

namespace LoopInvariant

namespace Knowledge

variable {k : Knowledge} {d : Datapoint} {names : List String} {fuel : Nat}
  {pending : List Datapoint} {s s' : Knowledge × List Pending}

/-! ## The loop over pending datapoints -/

/-- Registering as a loop over a stack of pending datapoints, without a result if it takes more turns
than given. -/
def registerLoop : Nat → List Datapoint → Knowledge × List Pending →
    Option (Except Contradiction (Knowledge × List Pending))
  | 0, _, _ => none
  | _ + 1, [], s => some (.ok s)
  | turns + 1, d :: pending, s =>
    if s.1.points.contains d then registerLoop turns pending s
    else
      match inherit d (s.1.relatives d) ({ s.1 with points := s.1.points.insert d }, s.2) with
      | .ok s' => registerLoop turns ((s.1.commonParts d).reverse ++ pending) s'
      | .error e => some (.error e)

/-- The loop after part of the pending datapoints, which may have failed. -/
def resume (turns : Nat) (pending : List Datapoint) :
    Except Contradiction (Knowledge × List Pending) →
      Option (Except Contradiction (Knowledge × List Pending))
  | .ok s => registerLoop turns pending s
  | .error e => some (.error e)

/-- The loop works off pending datapoints as they are registered one after the other, if it does so
with each that there is fuel for. -/
theorem exists_turns_of_foldlM
    (hregister : ∀ {m : Datapoint} {s : Knowledge × List Pending} (pending : List Datapoint),
      s.1.Room names fuel [m] → ∃ turns, ∀ more,
        registerLoop (turns + more) (m :: pending) s = resume more pending (register fuel m s))
    {ms : List Datapoint} (hroom : s.1.Room names fuel ms) (pending : List Datapoint) :
    ∃ turns, ∀ more, registerLoop (turns + more) (ms ++ pending) s =
      resume more pending (ms.foldlM (fun s m => register fuel m s) s) := by
  induction ms generalizing s with
  | nil => exact ⟨0, fun more => by rw [Nat.zero_add]; rfl⟩
  | cons m ms ih =>
    obtain ⟨turns, hfirst⟩ := hregister (ms ++ pending) hroom.head
    rw [List.foldlM_cons]
    cases hstep : register fuel m s with
    | error e =>
      refine ⟨turns, fun more => ?_⟩
      rw [List.cons_append, hfirst, hstep]
      rfl
    | ok s₁ =>
      obtain ⟨turns', hrest⟩ := ih (hroom.tail (adds_register hroom.head hstep))
      refine ⟨turns + turns', fun more => ?_⟩
      rw [List.cons_append, Nat.add_assoc, hfirst, hstep]
      exact hrest more

theorem exists_turns_of_register (pending : List Datapoint) (hroom : s.1.Room names fuel [d]) :
    ∃ turns, ∀ more,
      registerLoop (turns + more) (d :: pending) s = resume more pending (register fuel d s) := by
  induction fuel generalizing d s pending with
  | zero => exact absurd hroom.pos (Nat.lt_irrefl 0)
  | succ fuel ih =>
    rw [register_succ]
    cases hmem : s.1.points.contains d with
    | true =>
      refine ⟨1, fun more => ?_⟩
      rw [Nat.add_comm, registerLoop, if_pos hmem]
      rfl
    | false =>
      have hnew : ¬s.1.points.contains d = true := by rw [hmem]; exact Bool.false_ne_true
      cases hinherit : inherit d (s.1.relatives d)
          ({ s.1 with points := s.1.points.insert d }, s.2) with
      | error e =>
        refine ⟨1, fun more => ?_⟩
        rw [Nat.add_comm, registerLoop, if_neg hnew, hinherit]
        rfl
      | ok s₁ =>
        have hparts := hroom.commonParts (mem_datapoints_inherit hinherit)
        obtain ⟨turns, hturns⟩ := exists_turns_of_foldlM ih hparts pending
        refine ⟨turns + 1, fun more => ?_⟩
        rw [Nat.add_right_comm, registerLoop, if_neg hnew, hinherit]
        exact hturns more

/-- Whatever is known, the loop ends with what registering gives. -/
theorem registerLoop_ends (s : Knowledge × List Pending) (d : Datapoint) :
    ∃ turns, ∀ more,
      registerLoop (turns + more) [d] s = some (register (s.1.registerFuel d) d s) := by
  obtain ⟨names, hroom⟩ := s.1.room_registerFuel d
  obtain ⟨turns, hturns⟩ := exists_turns_of_register [] hroom
  refine ⟨turns + 1, fun more => ?_⟩
  rw [Nat.add_assoc, hturns, Nat.add_comm]
  cases register (s.1.registerFuel d) d s with
  | error e => rfl
  | ok s' => rfl

/-! ## What is in the index -/

theorem mem_subsetsOf_iff_mem_supersetsOf {e : Datapoint} :
    e ∈ k.subsetsOf d ↔ d ∈ k.supersetsOf e := by
  rw [mem_subsetsOf_iff, mem_supersetsOf_iff, and_left_comm, ne_comm]

end Knowledge

open Knowledge

/-- The registered datapoints are those that constraints mention and all common parts of them. The
index relates each to exactly those inside and around it, in both directions. Registering comes to
an end, whatever is known and whatever is waiting. -/
theorem subsumption_index_exact {k : Knowledge} (hk : k.Reachable) :
    (∀ d ∈ k.datapoints, ∀ e ∈ k.datapoints,
      (e ∈ k.subsetsOf d ↔ e.subset d = true ∧ e ≠ d) ∧
        (e ∈ k.subsetsOf d ↔ d ∈ k.supersetsOf e)) ∧
    (∀ d, d ∈ k.datapoints ↔ Datapoint.Generated k.Mentions d) ∧
    ∀ (s : Knowledge × List Pending) (d : Datapoint), ∃ turns, ∀ more,
      registerLoop (turns + more) [d] s = some (register (s.1.registerFuel d) d s) := by
  refine ⟨fun d hd e he => ⟨?_, mem_subsetsOf_iff_mem_supersetsOf⟩, fun d => hk.mem_datapoints_iff,
    registerLoop_ends⟩
  rw [mem_subsetsOf_iff, and_iff_right hd, and_iff_right he]

def overlapping : Knowledge :=
  (insertAll {} [⟨[⟨0, .ofList [("x", .int 1)]⟩, ⟨0, .ofList [("y", .int 2)]⟩],
    some ⟨0, .ofList [("z", .int 3)]⟩, .clause 0⟩]).2

/-- They have four common parts, and the smallest of these lies inside each of the three. -/
theorem overlapping_indexed :
    overlapping.points.size = 7 ∧
      Datapoint.Generated overlapping.Mentions
        ⟨0, .ofList [("x", .int 1), ("y", .int 2), ("z", .int 3)]⟩ ∧
      ⟨0, .ofList [("x", .int 1), ("y", .int 2), ("z", .int 3)]⟩ ∈
        overlapping.subsetsOf ⟨0, .ofList [("z", .int 3)]⟩ := by
  have hk : overlapping.Reachable := (Reachable.empty.insertAll_snd _).1
  obtain ⟨hindex, hclosed, -⟩ := subsumption_index_exact hk
  have hpart : ⟨0, .ofList [("x", .int 1), ("y", .int 2), ("z", .int 3)]⟩ ∈
      overlapping.datapoints := by decide +kernel
  refine ⟨by decide +kernel, (hclosed _).1 hpart, (hindex _ ?_ _ hpart).1.2 ?_⟩
  · decide +kernel
  · decide +kernel

end LoopInvariant
