import Mathlib.Data.List.Induction
import LoopInvariant.Concurrent.Hub
import LoopInvariant.Proofs.Progress
import LoopInvariant.Proofs.Retirement
/-!
# What the hub makes of reports

The hub takes reports in batches, and how they fall into batches is a matter of chance. What it
knows is what it would know had it been given all reported constraints in a row, up to what is
retired. So the verdict after given reports does not depend on the batches, and the hub comes to it
at the first report that decides. In between it publishes exactly what the batches so far have
reported.
-/

namespace LoopInvariant

/-! ## Constraints in a row -/

namespace Knowledge

variable {k k' : Knowledge} {cs cs' : List Constraint} {n : Nat} {e : Contradiction}

theorem insertAll_append (h : k.insertAll cs = (.ok n, k')) :
    k.insertAll (cs ++ cs') = ((k'.insertAll cs').1.map (· + n), (k'.insertAll cs').2) := by
  induction cs generalizing k n with
  | nil =>
    cases h
    rw [List.nil_append]
    refine Prod.ext ?_ rfl
    cases (k'.insertAll cs').1 with
    | error e => rfl
    | ok m => rfl
  | cons c cs ih =>
    rw [List.cons_append, Knowledge.insertAll]
    rw [Knowledge.insertAll] at h
    cases hinsert : k.insert c with
    | error e =>
      rw [hinsert] at h
      cases h
    | ok r =>
      obtain ⟨added, next⟩ := r
      rw [hinsert] at h
      simp only [Prod.mk.injEq, map_eq_ok] at h
      obtain ⟨⟨m, hm, rfl⟩, hlast⟩ := h
      simp only [ih (Prod.ext hm hlast)]
      cases (k'.insertAll cs').1 with
      | error e => rfl
      | ok j => simp [Except.map, Nat.add_assoc]

theorem eq_of_insertAll (h : k.insertAll cs = (.ok n, k')) (hn : n = 0) : k' = k := by
  induction cs generalizing k n with
  | nil =>
    cases h
    rfl
  | cons c cs ih =>
    rw [Knowledge.insertAll] at h
    cases hinsert : k.insert c with
    | error e =>
      rw [hinsert] at h
      cases h
    | ok r =>
      obtain ⟨added, next⟩ := r
      rw [hinsert] at h
      simp only [Prod.mk.injEq, map_eq_ok] at h
      obtain ⟨⟨m, hm, hsum⟩, hlast⟩ := h
      have hrest := ih (Prod.ext hm hlast) (by omega)
      rcases insert_eq_ok hinsert with ⟨-, heq, -⟩ | ⟨hadded, -⟩
      · exact hrest.trans heq
      · simp only [hadded, if_true] at hsum
        omega

end Knowledge

/-! ## A hub at work -/

namespace Report

def found : Report → List Constraint
  | .checked _ _ (.ok (some cs)) => cs
  | _ => []

/-- What is known when all constraints of some reports were added in a row. -/
def known (before : List Report) : Knowledge := (Knowledge.insertAll {} (before.flatMap found)).2

/-- The constraints of some reports can be added in a row. -/
def Consistent (before : List Report) : Prop :=
  ∃ n, Knowledge.insertAll {} (before.flatMap found) = (.ok n, known before)

/-- The verdict that a report brings after others: candidates are accepted, or its constraints
contradict those of the others. -/
def verdictAfter? (before : List Report) : Report → Option Verdict
  | .checked _ cs (.ok none) => some (.safe cs)
  | .checked _ _ (.ok (some cs)) =>
    match ((known before).insertAll cs).1 with
    | .error e => some (.refuted e)
    | .ok _ => none
  | _ => none

variable {before : List Report} {r : Report} {n : Nat}

theorem verdictAfter?_eq_safe {cs : Candidates} :
    r.verdictAfter? before = some (.safe cs) ↔ ∃ snapshot, r = .checked snapshot cs (.ok none) := by
  rw [verdictAfter?.eq_def]
  constructor
  · intro hr
    split at hr
    · next snapshot cs' =>
      cases hr
      exact ⟨snapshot, rfl⟩
    · split at hr
      · cases hr
      · cases hr
    · cases hr
  · rintro ⟨snapshot, rfl⟩
    rfl

theorem verdictAfter?_eq_refuted {e : Contradiction} :
    r.verdictAfter? before = some (.refuted e) ↔
      ((known before).insertAll r.found).1 = .error e := by
  cases r with
  | failed i snapshot e' => simp [verdictAfter?, found, Knowledge.insertAll]
  | checked snapshot cs result =>
    cases result with
    | error e' => simp [verdictAfter?, found, Knowledge.insertAll]
    | ok reported =>
      cases reported with
      | none => simp [verdictAfter?, found, Knowledge.insertAll]
      | some cs =>
        rw [verdictAfter?, found]
        split
        · next hresult => simp [hresult]
        · next hresult => simp [hresult]

theorem Consistent.append (hb : Consistent before)
    (hr : ((known before).insertAll r.found).1 = .ok n) :
    Consistent (before ++ [r]) ∧ known (before ++ [r]) = ((known before).insertAll r.found).2 := by
  obtain ⟨m, hm⟩ := hb
  have hall : Knowledge.insertAll {} ((before ++ [r]).flatMap found) =
      (.ok (n + m), ((known before).insertAll r.found).2) := by
    rw [List.flatMap_append, List.flatMap_singleton, Knowledge.insertAll_append hm, hr]
    rfl
  have hknown : known (before ++ [r]) = ((known before).insertAll r.found).2 := by
    rw [known, hall]
  exact ⟨⟨n + m, hall.trans (by rw [hknown])⟩, hknown⟩

theorem Consistent.mem_known (hb : Consistent before) (c : Constraint) :
    c ∈ (known before).constraints ↔ c ∈ before.flatMap found := by
  obtain ⟨n, hn⟩ := hb
  rw [(Knowledge.Reachable.empty.insertAll hn).2 c]
  simp

end Report

namespace Hub

variable {learners : Nat} {done batches batches' : List (List Report)}
  {part before before' rs : List Report} {h h' : Hub} {r r' : Report} {o : Outcome}

def takeAll (learners : Nat) (batches : List (List Report)) : Except Outcome Hub :=
  batches.foldlM applyBatch (start learners)

/-- The state of a hub when it turns to a report: it has taken those before it, in whole batches and
the first part of another. -/
def Meets (learners : Nat) (batches : List (List Report)) (before : List Report) (r : Report)
    (h : Hub) : Prop :=
  ∃ done part rest later, batches = done ++ (part ++ r :: rest) :: later ∧
    before = done.flatten ++ part ∧ takeAll learners done >>= part.foldlM apply = .ok h

theorem applyBatch_eq (h : Hub) (rs : List Report) :
    h.applyBatch rs = rs.foldlM apply h >>= endBatch := by
  induction rs generalizing h with
  | nil => rfl
  | cons r rs ih =>
    rw [applyBatch, List.foldlM_cons]
    cases h.apply r with
    | error o => rfl
    | ok h' => exact ih h'

theorem takeAll_append (learners : Nat) (done : List (List Report)) (part : List Report) :
    takeAll learners (done ++ [part]) =
      takeAll learners done >>= part.foldlM apply >>= endBatch := by
  rw [takeAll, List.foldlM_append, ← takeAll]
  cases takeAll learners done with
  | error o => rfl
  | ok h =>
    show [part].foldlM applyBatch h = part.foldlM apply h >>= endBatch
    rw [List.foldlM_cons, applyBatch_eq]
    exact bind_pure _

/-- A hub at work: some batches are done, and some reports of the next are taken. -/
inductive Taking (learners : Nat) : List (List Report) → List Report → Hub → Prop where
  | start : Taking learners [] [] (start learners)
  | report {done : List (List Report)} {part : List Report} {h h' : Hub} {r : Report}
      (hh : Taking learners done part h) (hr : h.apply r = .ok h') :
      Taking learners done (part ++ [r]) h'
  | batch {done : List (List Report)} {part : List Report} {h h' : Hub}
      (hh : Taking learners done part h) (hend : h.endBatch = .ok h') :
      Taking learners (done ++ [part]) [] h'

theorem Taking.reports (hh : Taking learners done part h) (hrs : rs.foldlM apply h = .ok h') :
    Taking learners done (part ++ rs) h' := by
  induction rs generalizing part h with
  | nil =>
    cases hrs
    rwa [List.append_nil]
  | cons r rs ih =>
    rw [List.foldlM_cons, bind_eq_ok] at hrs
    obtain ⟨h₁, hr, hrs⟩ := hrs
    rw [List.append_cons]
    exact ih (hh.report hr) hrs

theorem taking_of_takeAll (hrun : takeAll learners batches = .ok h) :
    Taking learners batches [] h := by
  induction batches using List.reverseRecOn generalizing h with
  | nil =>
    cases hrun
    exact .start
  | append_singleton done part ih =>
    rw [takeAll_append, bind_eq_ok] at hrun
    obtain ⟨h₂, hrun, hend⟩ := hrun
    obtain ⟨h₁, hdone, hpart⟩ := bind_eq_ok.1 hrun
    exact ((ih hdone).reports hpart).batch hend

theorem Meets.taking (hmeets : Meets learners batches before r h) :
    ∃ done part, before = done.flatten ++ part ∧ Taking learners done part h := by
  obtain ⟨done, part, rest, later, -, hbefore, hrun⟩ := hmeets
  obtain ⟨h₀, hdone, hpart⟩ := bind_eq_ok.1 hrun
  refine ⟨done, part, hbefore, ?_⟩
  rw [← List.nil_append part]
  exact (taking_of_takeAll hdone).reports hpart

/-- An outcome comes at a report or at the end of a batch. -/
theorem takeAll_eq_error :
    takeAll learners batches = .error o ↔
      (∃ before r h, Meets learners batches before r h ∧ h.apply r = .error o) ∨
        ∃ done part later h, batches = done ++ part :: later ∧
          takeAll learners done >>= part.foldlM apply = .ok h ∧ h.endBatch = .error o := by
  rw [takeAll, foldlM_eq_error]
  simp only [applyBatch_eq, bind_eq_error, foldlM_eq_error, Meets, bind_eq_ok]
  constructor
  · rintro ⟨done, batch, later, h₀, rfl, hdone,
      ⟨part, r, rest, h, rfl, hpart, hr⟩ | ⟨h, hpart, hend⟩⟩
    · exact .inl ⟨_, r, h, ⟨done, part, rest, later, rfl, rfl, h₀, hdone, hpart⟩, hr⟩
    · exact .inr ⟨done, batch, later, h, rfl, ⟨h₀, hdone, hpart⟩, hend⟩
  · rintro (⟨before, r, h, ⟨done, part, rest, later, rfl, rfl, h₀, hdone, hpart⟩, hr⟩ |
      ⟨done, part, later, h, rfl, ⟨h₀, hdone, hpart⟩, hend⟩)
    · exact ⟨done, _, later, h₀, rfl, hdone, .inl ⟨part, r, rest, h, rfl, hpart, hr⟩⟩
    · exact ⟨done, part, later, h₀, rfl, hdone, .inr ⟨h, hpart, hend⟩⟩

/-! ## What a step does -/

theorem apply_eq_ok (hr : h.apply r = .ok h') :
    ∃ n failed stalled, h.knowledge.insertAll r.found = (.ok n, h'.knowledge) ∧
      h' = { h with knowledge := h'.knowledge, added := h.added + n, failed, stalled } ∧
      ∀ i ∈ failed.toList, i ∈ h.failed.toList ∨ ∃ e, r = .failed i h.current e := by
  rw [apply.eq_def] at hr
  split at hr
  · cases hr
  · cases hr
  · next snapshot cs found =>
    split at hr
    · cases hr
    · next n k hinsert =>
      cases hr
      exact ⟨n, h.failed, _, hinsert, rfl, fun i => .inl⟩
  · next i snapshot e =>
    split at hr
    · next hcurrent =>
      dsimp only at hr
      split at hr
      · cases hr
      · cases hr
        refine ⟨0, h.failed.insert i, h.stalled, rfl, rfl, fun j hj => ?_⟩
        rcases SortedSet.mem_toList_insert.1 hj with rfl | hj
        · exact .inr ⟨e, by rw [hcurrent]⟩
        · exact .inl hj
    · cases hr
      exact ⟨0, h.failed, h.stalled, rfl, rfl, fun j => .inl⟩

theorem endBatch_eq_ok (hend : h.endBatch = .ok h') :
    (h.added = 0 ∧ h' = h) ∨
      h' = publish { h with knowledge := h.knowledge.simplify.2
                            failed := ∅
                            added := 0
                            stalled := false } := by
  rw [endBatch] at hend
  split at hend
  · next hadded =>
    split at hend
    · cases hend
    · cases hend
      exact .inl ⟨hadded, rfl⟩
  · cases hend
    exact .inr rfl

theorem endBatch_eq_error (hend : h.endBatch = .error o) : o = .error .noProgress := by
  rw [endBatch] at hend
  split at hend
  · split at hend
    · cases hend
      rfl
    · cases hend
  · cases hend

theorem apply_eq_safe {cs : Candidates} :
    h.apply r = .error (.ok (.safe cs)) ↔ ∃ snapshot, r = .checked snapshot cs (.ok none) := by
  rw [apply.eq_def]
  constructor
  · intro hr
    split at hr
    · next snapshot cs' =>
      cases hr
      exact ⟨snapshot, rfl⟩
    · cases hr
    · split at hr
      · cases hr
      · cases hr
    · split at hr
      · dsimp only at hr
        split at hr
        · cases hr
        · cases hr
      · cases hr
  · rintro ⟨snapshot, rfl⟩
    rfl

theorem apply_eq_refuted {e : Contradiction} :
    h.apply r = .error (.ok (.refuted e)) ↔ (h.knowledge.insertAll r.found).1 = .error e := by
  rw [apply.eq_def]
  split
  · simp [Report.found, Knowledge.insertAll]
  · simp [Report.found, Knowledge.insertAll]
  · next found =>
    show _ ↔ (h.knowledge.insertAll found).1 = .error e
    split
    · next e' k hinsert => simp [hinsert]
    · next n k hinsert => simp [hinsert]
  · split
    · dsimp only
      split
      · simp [Report.found, Knowledge.insertAll]
      · simp [Report.found, Knowledge.insertAll]
    · simp [Report.found, Knowledge.insertAll]

theorem apply_eq_learner {e : LearnError} (hr : h.apply r = .error (.error (.learner e))) :
    ∃ i, r = .failed i h.current e ∧ (h.failed.insert i).size = h.learners := by
  rw [apply.eq_def] at hr
  split at hr
  · cases hr
  · cases hr
  · split at hr
    · cases hr
    · cases hr
  · next i snapshot e' =>
    split at hr
    · next hcurrent =>
      dsimp only at hr
      split at hr
      · next hsize =>
        cases hr
        exact ⟨i, by rw [hcurrent], hsize⟩
      · cases hr
    · cases hr

/-! ## What stays true -/

/-- What holds of a hub that has taken some reports, those of whole batches being given apart. -/
structure Sound (learners : Nat) (done : List (List Report)) (part : List Report) (h : Hub) :
    Prop where
  learners_eq : h.learners = learners
  current_eq : h.current = h.snapshots.generation
  consistent : Report.Consistent (done.flatten ++ part)
  same : Knowledge.SameButRetired h.knowledge (Report.known (done.flatten ++ part))
  failed : ∀ i ∈ h.failed.toList, ∃ e, .failed i h.current e ∈ done.flatten ++ part
  published : ∃ k, h.snapshots.value = some k ∧ k.Reachable ∧
    (∀ c, c ∈ k.constraints ↔ c ∈ done.flatten.flatMap Report.found) ∧
    (h.added = 0 → k.constraints = h.knowledge.constraints)

theorem sound_start (learners : Nat) : Sound learners [] [] (start learners) where
  learners_eq := rfl
  current_eq := rfl
  consistent := ⟨0, rfl⟩
  same := ⟨.empty, .empty, rfl⟩
  failed := fun i hi => absurd hi List.not_mem_nil
  published := ⟨{}, rfl, .empty, by simp, fun _ => rfl⟩

theorem Sound.mem_constraints (hs : Sound learners done part h) (c : Constraint) :
    c ∈ h.knowledge.constraints ↔ c ∈ (done.flatten ++ part).flatMap Report.found := by
  rw [← hs.consistent.mem_known, hs.same.constraints_eq]

theorem Sound.report (hs : Sound learners done part h) (hr : h.apply r = .ok h') :
    Sound learners done (part ++ [r]) h' := by
  obtain ⟨n, failed, stalled, hinsert, heq, hfailed⟩ := apply_eq_ok hr
  have hboth := hs.same.insertAll r.found
  rw [hinsert] at hboth
  obtain ⟨hconsistent, hknown⟩ := hs.consistent.append hboth.1.symm
  obtain ⟨k, hvalue, hk, hmem, hsame⟩ := hs.published
  rw [heq]
  constructor
  · exact hs.learners_eq
  · exact hs.current_eq
  · rw [← List.append_assoc]
    exact hconsistent
  · rw [← List.append_assoc, hknown]
    exact hboth.2
  · intro i hi
    rw [← List.append_assoc]
    rcases hfailed i hi with hi | ⟨e, rfl⟩
    · obtain ⟨e, he⟩ := hs.failed i hi
      exact ⟨e, List.mem_append_left _ he⟩
    · exact ⟨e, List.mem_append_right _ (List.mem_singleton_self _)⟩
  · refine ⟨k, hvalue, hk, hmem, fun (hadded : h.added + n = 0) => ?_⟩
    rw [hsame (by omega), Knowledge.eq_of_insertAll hinsert (by omega)]

theorem Sound.batch (hs : Sound learners done part h) (hend : h.endBatch = .ok h') :
    Sound learners (done ++ [part]) [] h' := by
  have hflatten : (done ++ [part]).flatten ++ [] = done.flatten ++ part := by simp
  rcases endBatch_eq_ok hend with ⟨hadded, rfl⟩ | rfl
  · obtain ⟨k, hvalue, hk, hmem, hsame⟩ := hs.published
    refine ⟨hs.learners_eq, hs.current_eq, ?_, ?_, ?_, ⟨k, hvalue, hk, fun c => ?_, hsame⟩⟩
    · rw [hflatten]
      exact hs.consistent
    · rw [hflatten]
      exact hs.same
    · rw [hflatten]
      exact hs.failed
    · rw [hsame hadded, hs.mem_constraints, ← hflatten, List.append_nil]
  · refine ⟨hs.learners_eq, rfl, ?_, ?_, fun i hi => absurd hi List.not_mem_nil,
      ⟨_, rfl, hs.same.left.simplify, fun c => ?_, fun _ => rfl⟩⟩
    · rw [hflatten]
      exact hs.consistent
    · rw [hflatten]
      exact ⟨hs.same.left.simplify, hs.same.right, hs.same.revived_eq⟩
    · show c ∈ h.knowledge.constraints ↔ _
      rw [hs.mem_constraints, ← hflatten, List.append_nil]

theorem Taking.sound (hh : Taking learners done part h) : Sound learners done part h := by
  induction hh with
  | start => exact sound_start learners
  | report _ hr ih => exact ih.report hr
  | batch _ hend ih => exact ih.batch hend

/-! ## Which report decides -/

theorem Sound.verdict_iff (hs : Sound learners done part h) (r : Report) (v : Verdict) :
    h.apply r = .error (.ok v) ↔ r.verdictAfter? (done.flatten ++ part) = some v := by
  cases v with
  | safe cs => rw [apply_eq_safe, Report.verdictAfter?_eq_safe]
  | refuted e =>
    rw [apply_eq_refuted, (hs.same.insertAll r.found).1, Report.verdictAfter?_eq_refuted]

theorem Taking.undecided (hh : Taking learners done part h) {before rest : List Report}
    (heq : done.flatten ++ part = before ++ r :: rest) : r.verdictAfter? before = none := by
  induction hh generalizing rest with
  | start => simp at heq
  | @report done part h h' r' hh hr ih =>
    rw [← List.append_assoc] at heq
    rcases List.eq_nil_or_concat rest with rfl | ⟨rest, last, rfl⟩
    · obtain ⟨rfl, hlast⟩ := List.append_inj' heq rfl
      cases hlast
      cases hverdict : r.verdictAfter? (done.flatten ++ part) with
      | none => rfl
      | some v => cases hr.symm.trans ((hh.sound.verdict_iff r v).2 hverdict)
    · rw [List.concat_eq_append, ← List.cons_append, ← List.append_assoc] at heq
      exact ih (List.append_inj' heq rfl).1
  | batch _ _ ih =>
    refine @ih rest ?_
    rw [← heq]
    simp

theorem Meets.undecided (hmeets : Meets learners batches before' r' h')
    (hlt : before.length < before'.length) (hsplit : before ++ [r] <+: before' ++ [r']) :
    r.verdictAfter? before = none := by
  obtain ⟨done, part, rfl, hh⟩ := hmeets.taking
  have hsplit : before ++ [r] <+: done.flatten ++ part := by
    refine List.prefix_of_prefix_length_le hsplit (List.prefix_append ..) ?_
    rw [List.length_append]
    exact hlt
  obtain ⟨rest, hrest⟩ := hsplit
  rw [← List.append_cons] at hrest
  exact hh.undecided hrest.symm

theorem Meets.verdict_iff (hmeets : Meets learners batches before r h) (v : Verdict) :
    h.apply r = .error (.ok v) ↔ r.verdictAfter? before = some v := by
  obtain ⟨done, part, rfl, hh⟩ := hmeets.taking
  exact hh.sound.verdict_iff r v

theorem Meets.isPrefix (hmeets : Meets learners batches before r h) :
    before ++ [r] <+: batches.flatten := by
  obtain ⟨done, part, rest, later, rfl, rfl, -⟩ := hmeets
  exact ⟨rest ++ later.flatten, by simp⟩

/-- The first report that decides is the same in all batches of the same reports. -/
theorem Meets.eq_of_verdict (hmeets : Meets learners batches before r h)
    (hmeets' : Meets learners batches' before' r' h')
    (hflatten : batches'.flatten = batches.flatten)
    {v v' : Verdict} (hv : h.apply r = .error (.ok v)) (hv' : h'.apply r' = .error (.ok v')) :
    before' = before ∧ r' = r ∧ v' = v := by
  rw [hmeets.verdict_iff] at hv
  rw [hmeets'.verdict_iff] at hv'
  have hprefix := hmeets.isPrefix
  rw [← hflatten] at hprefix
  have hle : before'.length ≤ before.length := by
    refine Nat.le_of_not_lt fun hlt => ?_
    have hsplit := List.prefix_of_prefix_length_le hprefix hmeets'.isPrefix (by simp; omega)
    cases hv.symm.trans (hmeets'.undecided hlt hsplit)
  have hge : before.length ≤ before'.length := by
    refine Nat.le_of_not_lt fun hlt => ?_
    have hsplit := List.prefix_of_prefix_length_le hmeets'.isPrefix hprefix (by simp; omega)
    cases hv'.symm.trans (hmeets.undecided hlt hsplit)
  have hsame : before' ++ [r'] = before ++ [r] :=
    (List.prefix_of_prefix_length_le hmeets'.isPrefix hprefix (by simp; omega)).eq_of_length
      (by simp; omega)
  obtain ⟨rfl, hr⟩ := List.append_inj' hsame rfl
  cases hr
  exact ⟨rfl, rfl, Option.some.inj (hv'.symm.trans hv)⟩

theorem Sound.refuted_iff (hs : Sound learners done part h) (r : Report) :
    (∃ e, h.apply r = .error (.ok (.refuted e))) ↔
      ¬∃ T, Datapoint.Closed T ∧
        ∀ c ∈ (done.flatten ++ part ++ [r]).flatMap Report.found, c.Meets T := by
  simp only [apply_eq_refuted, Knowledge.insertAll_eq_error_iff]
  rw [hs.same.left.assume_eq_error_iff, List.flatMap_append, List.flatMap_singleton]
  simp only [hs.mem_constraints, List.forall_mem_append]

/-- Once all learners have failed, each of them has on the latest snapshot. -/
theorem Sound.all_failed (hs : Sound learners done part h) {e : LearnError}
    (hr : h.apply r = .error (.error (.learner e))) :
    ∃ is : List Nat, is.Nodup ∧ is.length = learners ∧
      ∀ i ∈ is, ∃ e', .failed i h.snapshots.generation e' ∈ done.flatten ++ part ++ [r] := by
  obtain ⟨i, rfl, hsize⟩ := apply_eq_learner hr
  refine ⟨(h.failed.insert i).toList, SortedSet.nodup_toList _, ?_, fun j hj => ?_⟩
  · rw [← hs.learners_eq, ← hsize]
    exact SortedMap.length_keys _
  · rw [← hs.current_eq]
    rcases SortedSet.mem_toList_insert.1 hj with rfl | hj
    · exact ⟨e, List.mem_append_right _ (List.mem_singleton_self _)⟩
    · obtain ⟨e', he'⟩ := hs.failed j hj
      exact ⟨e', List.mem_append_left _ he'⟩

end Hub

open Hub

/-- However reports fall into batches, the hub loses none and invents nothing. What is published is
what whole batches have reported, each constraint once. Candidates are the verdict at the report
that accepts them, a contradiction at the report whose constraints, with those before it, have no
model, and inference is given up for the learners only when as many as there are have failed on the
latest snapshot. Batches of the same reports that lead to verdicts lead to the same one, at the same
report. -/
theorem batches_lose_nothing (learners : Nat) (batches : List (List Report)) :
    (∀ h, takeAll learners batches = .ok h → ∃ k, h.snapshots.value = some k ∧
      k.constraints.toList.Nodup ∧
      ∀ c, c ∈ k.constraints ↔ ∃ r ∈ batches.flatten, c ∈ r.found) ∧
    (∀ o, o ≠ .error .noProgress → (takeAll learners batches = .error o ↔
      ∃ before r h, Meets learners batches before r h ∧ h.apply r = .error o)) ∧
    ∀ before r h, Meets learners batches before r h →
      (∀ cs, h.apply r = .error (.ok (.safe cs)) ↔
        ∃ snapshot, r = .checked snapshot cs (.ok none)) ∧
      ((∃ e, h.apply r = .error (.ok (.refuted e))) ↔
        ¬∃ T, Datapoint.Closed T ∧ ∀ c ∈ (before ++ [r]).flatMap Report.found, c.Meets T) ∧
      (∀ e, h.apply r = .error (.error (.learner e)) → ∃ is : List Nat,
        is.Nodup ∧ is.length = learners ∧
        (∀ i ∈ is, ∃ e', .failed i h.snapshots.generation e' ∈ before ++ [r]) ∧
        ((∀ i snapshot e', .failed i snapshot e' ∈ before ++ [r] → i < learners) →
          ∀ i < learners, i ∈ is)) ∧
      ∀ batches' before' r' h' v v', batches'.flatten = batches.flatten →
        Meets learners batches' before' r' h' →
        h.apply r = .error (.ok v) → h'.apply r' = .error (.ok v') →
        before' = before ∧ r' = r ∧ v' = v := by
  refine ⟨fun h hrun => ?_, fun o ho => ?_, fun before r h hmeets => ?_⟩
  · obtain ⟨k, hvalue, hk, hmem, -⟩ := (taking_of_takeAll hrun).sound.published
    refine ⟨k, hvalue, hk.nodup, fun c => ?_⟩
    rw [hmem, List.mem_flatMap]
  · rw [takeAll_eq_error]
    refine ⟨fun hends => ?_, .inl⟩
    rcases hends with hends | ⟨done, part, later, h, -, -, hend⟩
    · exact hends
    · exact absurd (endBatch_eq_error hend) ho
  · obtain ⟨done, part, rfl, hh⟩ := hmeets.taking
    refine ⟨fun cs => apply_eq_safe, hh.sound.refuted_iff r, fun e he => ?_, ?_⟩
    · obtain ⟨is, hnodup, hlength, hfailed⟩ := hh.sound.all_failed he
      refine ⟨is, hnodup, hlength, hfailed, fun hbound i hi => ?_⟩
      have hsub : is ⊆ List.range learners := by
        intro j hj
        obtain ⟨e', he'⟩ := hfailed j hj
        exact List.mem_range.2 (hbound j _ e' he')
      have hperm := (List.subperm_of_subset hnodup hsub).perm_of_length_le
        (by rw [List.length_range, hlength])
      exact hperm.mem_iff.2 (List.mem_range.2 hi)
    · intro batches' before' r' h' v v' hflatten hmeets' hv hv'
      exact hmeets.eq_of_verdict hmeets' hflatten hv hv'

/-- A learner fails, one teacher finds that all states are inside, and another that some are not. -/
def conflictingReports : List Report :=
  [.failed 0 1 (.notExpressible "x"),
    .checked 1 (.const []) (.ok (some [⟨[], some ⟨0, ∅⟩, .clause 0⟩])),
    .checked 1 (.const []) (.ok (some [⟨[⟨0, .ofList [("x", .int 1)]⟩], none, .clause 1⟩]))]

/-- Wherever the first batch ends, the last of the conflicting reports decides. -/
theorem conflictingReports_refuted :
    ∃ before r h h' e,
      Meets 2 [conflictingReports.take 2, conflictingReports.drop 2] before r h ∧
      Meets 2 [conflictingReports.take 1, conflictingReports.drop 1] before r h' ∧
      h.apply r = .error (.ok (.refuted e)) ∧ h'.apply r = .error (.ok (.refuted e)) ∧
      ¬∃ T, Datapoint.Closed T ∧ ∀ c ∈ (before ++ [r]).flatMap Report.found, c.Meets T := by
  let e : Contradiction :=
    ⟨[⟨[], some ⟨0, ∅⟩, .clause 0⟩, ⟨[⟨0, .ofList [("x", .int 1)]⟩], none, .clause 1⟩]⟩
  have hrun : (takeAll 2 [conflictingReports.take 2, conflictingReports.drop 2]).map (fun _ => ()) =
      .error (.ok (.refuted e)) := by decide +kernel
  have hrun' :
      (takeAll 2 [conflictingReports.take 1, conflictingReports.drop 1]).map (fun _ => ()) =
        .error (.ok (.refuted e)) := by decide +kernel
  obtain ⟨-, hends, hat⟩ :=
    batches_lose_nothing 2 [conflictingReports.take 2, conflictingReports.drop 2]
  obtain ⟨-, hends', -⟩ :=
    batches_lose_nothing 2 [conflictingReports.take 1, conflictingReports.drop 1]
  obtain ⟨before, r, h, hmeets, hr⟩ := (hends _ (by simp)).1 (map_eq_error.1 hrun)
  obtain ⟨before', r', h', hmeets', hr'⟩ := (hends' _ (by simp)).1 (map_eq_error.1 hrun')
  obtain ⟨-, hnone, -, hsame⟩ := hat before r h hmeets
  have hflatten : [conflictingReports.take 1, conflictingReports.drop 1].flatten =
      [conflictingReports.take 2, conflictingReports.drop 2].flatten := rfl
  obtain ⟨rfl, rfl, -⟩ := hsame _ before' r' h' _ _ hflatten hmeets' hr hr'
  exact ⟨before', r', h, h', e, hmeets, hmeets', hr, hr', hnone.1 ⟨e, hr⟩⟩

end LoopInvariant
