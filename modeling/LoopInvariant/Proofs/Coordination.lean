import LoopInvariant.Inference
/-!
# What learners and teachers owe each other

A verdict is put together from what many parts hand on: a learner's candidates, a teacher's report on
them, and what the reports amount to. A contract names a property of each kind of part and says how
the properties follow from each other in one call. Then every verdict has its property, whether the
parts take turns or work side by side in any order.
-/

namespace LoopInvariant

variable {σ : Type} [Session σ] {system : ClauseSystem}

/-- Properties of the parts of inference that each call keeps. -/
structure Contract (σ : Type) [Session σ] (system : ClauseSystem) where
  learner : Learner → Prop
  session : σ → Prop
  candidates : Candidates → Prop
  reported : List Constraint → Prop
  knowledge : Knowledge → Prop
  verdict : Verdict → Prop
  learner_call : ∀ {l}, learner l → ∀ k, learner (l.call k).learner
  candidates_call : ∀ {l k cs}, learner l → (l.call k).suggestion = .ok cs → candidates cs
  session_check : ∀ {x}, session x → ∀ cs, session (Teacher.check system cs x).2
  verdict_check : ∀ {x cs}, session x → candidates cs →
    (Teacher.check system cs x).1 = .ok none → verdict (.safe cs)
  reported_check : ∀ {x cs found}, session x →
    (Teacher.check system cs x).1 = .ok (some found) → reported found
  knowledge_empty : knowledge {}
  knowledge_simplify : ∀ {k}, knowledge k → knowledge k.simplify.2
  knowledge_insertAll : ∀ {k k' found n}, knowledge k → reported found →
    k.insertAll found = (.ok n, k') → knowledge k'
  verdict_insertAll : ∀ {k k' found e}, knowledge k → reported found →
    k.insertAll found = (.error e, k') → verdict (.refuted e)

/-! ## In turns -/

namespace Coordinator

/-- A coordinator whose parts keep a contract. -/
structure Keeps (C : Contract σ system) (c : Coordinator σ) : Prop where
  system_eq : c.system = system
  learner : C.learner c.learner
  session : C.session c.session
  knowledge : c.verdict = none → C.knowledge c.knowledge
  verdict : ∀ v, c.verdict = some v → C.verdict v

variable {C : Contract σ system} {c : Coordinator σ}

theorem Keeps.learnFrom (h : c.Keeps C) (hnone : c.verdict = none) {cs : Candidates}
    {found : Option (List Constraint)} (haccepted : found = none → C.verdict (.safe cs))
    (hreported : ∀ cons, found = some cons → C.reported cons) : (c.learnFrom cs found).2.Keeps C := by
  have hknown := h.knowledge hnone
  cases found with
  | none =>
    refine ⟨h.system_eq, h.learner, h.session, nofun, ?_⟩
    rintro v ⟨⟩
    exact haccepted rfl
  | some cons =>
    have hcons := hreported cons rfl
    rw [Coordinator.learnFrom]
    split
    · next e k hinsert =>
      refine ⟨h.system_eq, h.learner, h.session, nofun, ?_⟩
      rintro v ⟨⟩
      exact C.verdict_insertAll hknown hcons hinsert
    · next k hinsert =>
      exact ⟨h.system_eq, h.learner, h.session,
        fun _ => C.knowledge_insertAll hknown hcons hinsert, h.verdict⟩
    · next k _ hinsert =>
      exact ⟨h.system_eq, h.learner, h.session,
        fun _ => C.knowledge_simplify (C.knowledge_insertAll hknown hcons hinsert), h.verdict⟩

theorem Keeps.step (h : c.Keeps C) : c.step.2.Keeps C := by
  rw [Coordinator.step]
  split
  · exact h
  · next hnone =>
    have hlearner := C.learner_call h.learner c.knowledge
    simp only
    split
    · exact ⟨h.system_eq, hlearner, h.session, h.knowledge, h.verdict⟩
    · next cs hsuggestion =>
      have hcs := C.candidates_call h.learner hsuggestion
      have hsession := C.session_check h.session cs
      rw [h.system_eq]
      split
      · next session hcheck =>
        rw [hcheck] at hsession
        exact ⟨rfl, hlearner, hsession, h.knowledge, h.verdict⟩
      · next found session hcheck =>
        rw [hcheck] at hsession
        refine Keeps.learnFrom ?_ ?_ (fun hfound => ?_) (fun cons hfound => ?_)
        · exact ⟨rfl, hlearner, hsession, h.knowledge, h.verdict⟩
        · exact hnone
        · exact C.verdict_check h.session hcs (by rw [hcheck, hfound])
        · exact C.reported_check h.session (by rw [hcheck, hfound])

/-- Every verdict of a run has the property of the contract. -/
theorem Keeps.run (h : c.Keeps C) {fuel : Nat} {v : Verdict} (hrun : (c.run fuel).1 = .ok v) :
    C.verdict v := by
  induction fuel generalizing c with
  | zero => cases hrun
  | succ fuel ih =>
    have hnext := h.step
    rw [Coordinator.run] at hrun
    split at hrun
    · cases hrun
    · next next hstep =>
      rw [hstep] at hnext
      split at hrun
      · next hverdict =>
        cases hrun
        exact hnext.verdict _ hverdict
      · exact ih hnext hrun

end Coordinator

/-! ## Side by side -/

def Report.Keeps (C : Contract σ system) : Report → Prop
  | .checked _ cs (.ok none) => C.verdict (.safe cs)
  | .checked _ _ (.ok (some found)) => C.reported found
  | _ => True

def Outcome.Keeps (C : Contract σ system) (o : Outcome) : Prop := ∀ v, o = .ok v → C.verdict v

namespace Hub

/-- What the hub comes to keeps a contract: an outcome or what is known. -/
def Comes (C : Contract σ system) : Except Outcome Hub → Prop
  | .error o => Outcome.Keeps C o
  | .ok h => C.knowledge h.knowledge

variable {C : Contract σ system} {h : Hub}

theorem comes_apply (hknown : C.knowledge h.knowledge) {r : Report} (hr : r.Keeps C) :
    Comes C (h.apply r) := by
  rw [apply.eq_def]
  split
  · rintro v ⟨⟩
    exact hr
  · rintro v ⟨⟩
  · next found =>
    split
    · next hinsert =>
      rintro v ⟨⟩
      exact C.verdict_insertAll hknown hr hinsert
    · next hinsert => exact C.knowledge_insertAll hknown hr hinsert
  · split
    · simp only
      split
      · rintro v ⟨⟩
      · exact hknown
    · exact hknown

theorem comes_endBatch (hknown : C.knowledge h.knowledge) : Comes C h.endBatch := by
  rw [endBatch]
  split
  · split
    · rintro v ⟨⟩
    · exact hknown
  · exact C.knowledge_simplify hknown

theorem comes_applyBatch (hknown : C.knowledge h.knowledge) {rs : List Report}
    (hrs : ∀ r ∈ rs, r.Keeps C) : Comes C (h.applyBatch rs) := by
  induction rs generalizing h with
  | nil => exact comes_endBatch hknown
  | cons r rs ih =>
    obtain ⟨hr, hrs⟩ := List.forall_mem_cons.1 hrs
    have hnext := comes_apply hknown hr
    rw [applyBatch]
    split
    · next heq =>
      rw [heq] at hnext
      exact ih hnext hrs
    · next heq => rwa [heq] at hnext

end Hub

namespace Workshop

/-- A workshop in which everything that lies about keeps a contract. -/
structure Keeps (C : Contract σ system) (w : Workshop σ) : Prop where
  system_eq : w.system = system
  learners : ∀ d ∈ w.learners, C.learner d.learner
  sessions : ∀ d ∈ w.teachers, C.session d.session
  jobs : ∀ d ∈ w.teachers, ∀ g cs, d.job = some (g, cs) → C.candidates cs
  candidates : ∀ g cs, w.candidates.value = some (g, cs) → C.candidates cs
  reports : ∀ r ∈ w.reports, r.Keeps C
  batch : ∀ r ∈ w.batch, r.Keeps C
  knowledge : C.knowledge w.hub.knowledge
  outcome : ∀ o, w.outcome = some o → Outcome.Keeps C o

variable {C : Contract σ system} {w : Workshop σ}

theorem keeps_start {learners : List Learner} {sessions : List σ}
    (hlearners : ∀ l ∈ learners, C.learner l) (hsessions : ∀ x ∈ sessions, C.session x) :
    (start system learners sessions).Keeps C := by
  refine ⟨rfl, ?_, ?_, ?_, nofun, nofun, nofun, C.knowledge_empty, nofun⟩
  · exact List.forall_mem_map.2 hlearners
  · exact List.forall_mem_map.2 hsessions
  · exact List.forall_mem_map.2 nofun

theorem forall_mem_set {α : Type} {P : α → Prop} {xs : List α} (h : ∀ x ∈ xs, P x) {i : Nat} {a : α}
    (ha : P a) : ∀ x ∈ xs.set i a, P x := fun x hx =>
  (List.mem_or_eq_of_mem_set hx).elim (h x) fun heq => heq ▸ ha

theorem Keeps.learnerReads (h : w.Keeps C) (i : Nat) : (w.learnerReads i).Keeps C := by
  rw [Workshop.learnerReads]
  split
  · next learner seen hdesk =>
    have hlearner := h.learners _ (List.mem_of_getElem? hdesk)
    split
    · exact { h with learners := forall_mem_set h.learners hlearner }
    · exact h
  · exact h

theorem Keeps.learnerAnswers (h : w.Keeps C) (i : Nat) : (w.learnerAnswers i).Keeps C := by
  rw [Workshop.learnerAnswers]
  split
  · next learner seen g k hdesk =>
    have hlearner := h.learners _ (List.mem_of_getElem? hdesk)
    have hlearners := forall_mem_set (i := i) h.learners (a := ⟨_, seen, none⟩)
      (C.learner_call hlearner k)
    simp only
    split
    · next cs hsuggestion =>
      refine { h with learners := hlearners, candidates := ?_ }
      rw [Slot.offer]
      split
      · exact h.candidates
      · rintro g' cs' ⟨⟩
        exact C.candidates_call hlearner hsuggestion
    · split
      · refine { h with learners := hlearners, reports := ?_ }
        exact List.forall_mem_append.2 ⟨h.reports, List.forall_mem_singleton.2 trivial⟩
      · exact h
  · exact h

theorem Keeps.teacherReads (h : w.Keeps C) (i : Nat) : (w.teacherReads i).Keeps C := by
  rw [Workshop.teacherReads]
  split
  · next session seen hdesk =>
    have hsession := h.sessions _ (List.mem_of_getElem? hdesk)
    split
    · next g job hread =>
      have hvalue : w.candidates.value = some job := (Slot.read_eq_newer_iff.1 hread).2.1
      refine { h with sessions := forall_mem_set h.sessions hsession, jobs := ?_ }
      refine forall_mem_set h.jobs fun g' cs hjob => h.candidates g' cs ?_
      rw [hvalue, ← hjob]
    · exact h
  · exact h

theorem Keeps.teacherAnswers (h : w.Keeps C) (i : Nat) : (w.teacherAnswers i).Keeps C := by
  rw [Workshop.teacherAnswers]
  split
  · next session seen g cs hdesk =>
    have hsession := h.sessions _ (List.mem_of_getElem? hdesk)
    have hcs := h.jobs _ (List.mem_of_getElem? hdesk) g cs rfl
    split
    · have hsession' := C.session_check hsession cs
      have hreport : Report.Keeps C (.checked g cs (Teacher.check system cs session).1) := by
        cases hcheck : (Teacher.check system cs session).1 with
        | error e => trivial
        | ok found =>
          cases found with
          | none => exact C.verdict_check hsession hcs hcheck
          | some found => exact C.reported_check hsession hcheck
      rw [h.system_eq]
      refine { h with
        system_eq := rfl, sessions := forall_mem_set h.sessions hsession', jobs := ?_, reports := ?_ }
      · exact forall_mem_set h.jobs nofun
      · exact List.forall_mem_append.2 ⟨h.reports, List.forall_mem_singleton.2 hreport⟩
    · exact h
  · exact h

theorem Keeps.hubReceives (h : w.Keeps C) : w.hubReceives.Keeps C := by
  rw [Workshop.hubReceives]
  split
  · next r rs hnone hreports =>
    have hall := h.reports
    rw [hreports] at hall
    obtain ⟨hr, hrs⟩ := List.forall_mem_cons.1 hall
    refine { h with reports := hrs, batch := ?_ }
    exact List.forall_mem_append.2 ⟨h.batch, List.forall_mem_singleton.2 hr⟩
  · exact h

theorem Keeps.hubApplies (h : w.Keeps C) : w.hubApplies.Keeps C := by
  rw [Workshop.hubApplies]
  split
  · next r rs hnone hreceived =>
    have hcomes := Hub.comes_applyBatch h.knowledge h.batch
    rw [hreceived] at hcomes
    split
    · next hub heq =>
      rw [heq] at hcomes
      exact { h with knowledge := hcomes, batch := nofun }
    · next o heq =>
      rw [heq] at hcomes
      refine { h with reports := nofun, batch := nofun, outcome := ?_ }
      rintro o' ⟨⟩
      exact hcomes
  · exact h

theorem Keeps.move (h : w.Keeps C) (m : Move) : (w.move m).Keeps C := by
  cases m with
  | learnerReads i => exact h.learnerReads i
  | learnerAnswers i => exact h.learnerAnswers i
  | teacherReads i => exact h.teacherReads i
  | teacherAnswers i => exact h.teacherAnswers i
  | hubReceives => exact h.hubReceives
  | hubApplies => exact h.hubApplies
  | closeSnapshots => exact { h with knowledge := h.knowledge }
  | closeCandidates => exact { h with candidates := h.candidates }

theorem Keeps.play (h : w.Keeps C) (moves : List Move) : (w.play moves).Keeps C := by
  induction moves generalizing w with
  | nil => exact h
  | cons m moves ih => exact ih (h.move m)

theorem exists_play_of_run {fuel : Nat} {v : Verdict} (h : (w.run fuel).1 = .ok v) :
    ∃ moves, (w.play moves).outcome = some (.ok v) := by
  induction fuel generalizing w with
  | zero => cases h
  | succ fuel ih =>
    rw [run] at h
    split at h
    · next o houtcome =>
      cases h
      exact ⟨w.round, houtcome⟩
    · obtain ⟨moves, hmoves⟩ := ih h
      refine ⟨w.round ++ moves, ?_⟩
      rwa [play_append]

end Workshop

/-! ## Verdicts -/

/-- A verdict that inference can come to: in turns after some rounds, or side by side after some
moves of the workers in any order. -/
inductive Returns (system : ClauseSystem) (config : InferenceConfig) (session : σ) (v : Verdict) :
    Prop where
  | inTurns (fuel : Nat)
      (h : (Coordinator.run fuel { system, learner := config.learner system 0, session }).1 = .ok v)
  | sideBySide (moves : List Move)
      (h : ((Workshop.start system
        ((List.range (max config.learners 1)).map (config.learner system))
        (List.replicate (max config.teachers 1) session)).play moves).outcome = some (.ok v))

variable {config : InferenceConfig} {session : σ} {v : Verdict}

theorem Returns.of_infer (h : (infer system config (.ok session)).1 = .ok v) :
    Returns system config session v := by
  rw [infer] at h
  simp only at h
  split at h
  · obtain ⟨moves, hmoves⟩ := Workshop.exists_play_of_run h
    exact .sideBySide moves hmoves
  · exact .inTurns _ h

theorem Returns.keeps (h : Returns system config session v) (C : Contract σ system)
    (hlearner : ∀ n, C.learner (config.learner system n)) (hsession : C.session session) :
    C.verdict v := by
  cases h with
  | inTurns fuel h =>
    have hstart : Coordinator.Keeps C
        { system, learner := config.learner system 0, session : Coordinator σ } :=
      ⟨rfl, hlearner 0, hsession, fun _ => C.knowledge_empty, nofun⟩
    exact hstart.run h
  | sideBySide moves h =>
    refine ((Workshop.keeps_start ?_ ?_).play moves).outcome _ h v rfl
    · exact List.forall_mem_map.2 fun n _ => hlearner n
    · exact fun x hx => List.eq_of_mem_replicate hx ▸ hsession

end LoopInvariant
