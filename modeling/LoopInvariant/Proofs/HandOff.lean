import LoopInvariant.Proofs.Batches
import LoopInvariant.Proofs.Coordination
/-!
# Hand-off between workers

Workers that move in any order share two slots: the hub publishes snapshots for the learners, and
the learners offer candidates to the teachers. A value in a slot may be replaced before anybody has
read it. Still, a slot only moves forward, and so do its readers: what they get is what was published
under the generation that comes with it, and the next they get is newer. A learner that was slow
cannot put candidates from an old snapshot in the place of newer ones.

A workshop starts with the first snapshot in place. Nobody can read before, so a slot that is closed
even earlier might as well be closed by the first move.
-/

namespace LoopInvariant

/-! ## Slots -/

namespace Slot

variable {α : Type} {s t u : Slot α}

inductive Step (s : Slot α) : Slot α → Prop where
  | stay : Step s s
  | publish (a : α) : Step s (s.publish a)
  | close : Step s s.close

/-- What a move can do to a reader of a slot, which has seen a generation and may be at work on a
value. -/
inductive Turn (s : Slot α) : Nat × Option α → Nat × Option α → Prop where
  | stay (r : Nat × Option α) : Turn s r r
  | finish (seen : Nat) (work : Option α) : Turn s (seen, work) (seen, none)
  | take {seen g : Nat} {a : α} (h : s.read seen = .newer g a) : Turn s (seen, none) (g, some a)

/-- A slot after some moves. -/
structure Later (s t : Slot α) : Prop where
  generation_le : s.generation ≤ t.generation
  closed : s.closed = true → t.closed = true

theorem Later.trans (h : Later s t) (h' : Later t u) : Later s u :=
  ⟨h.generation_le.trans h'.generation_le, h'.closed ∘ h.closed⟩

theorem Step.later (h : Step s t) : Later s t := by
  cases h with
  | stay => exact ⟨Nat.le_refl _, id⟩
  | publish a => exact ⟨Nat.le_succ _, id⟩
  | close => exact ⟨Nat.le_refl _, fun _ => rfl⟩

theorem Turn.seen_le {r r' : Nat × Option α} (h : s.Turn r r') : r.1 ≤ r'.1 := by
  cases h with
  | stay => exact Nat.le_refl _
  | finish => exact Nat.le_refl _
  | take h => exact (read_eq_newer_iff.1 h).2.2.2.le

end Slot

/-! ## Moves -/

variable {σ : Type}

namespace Hub

variable {h h' : Hub}

theorem snapshots_of_applyBatch {rs : List Report} (hbatch : h.applyBatch rs = .ok h') :
    h.snapshots.Step h'.snapshots := by
  induction rs generalizing h with
  | nil =>
    rcases endBatch_eq_ok hbatch with ⟨-, rfl⟩ | rfl
    · exact .stay
    · exact .publish _
  | cons r rs ih =>
    rw [applyBatch] at hbatch
    split at hbatch
    · next next hr =>
      obtain ⟨n, failed, stalled, -, hnext, -⟩ := apply_eq_ok hr
      have hsame : next.snapshots = h.snapshots := by rw [hnext]
      exact hsame ▸ ih hbatch
    · cases hbatch

end Hub

def LearnerDesk.state (d : LearnerDesk) : Nat × Option Knowledge := (d.seen, d.job.map (·.2))

def TeacherDesk.state (d : TeacherDesk σ) : Nat × Option (Nat × Candidates) := (d.seen, d.job)

def LearnerDesk.Tagged (d : LearnerDesk) : Prop := ∀ g k, d.job = some (g, k) → d.seen = g

namespace Workshop

/-- What a move can do: it has no effect, or a worker takes a value, or it hands in its work, or the
hub receives or applies reports, or a slot is closed. -/
inductive Step (w : Workshop σ) : Move → Workshop σ → Prop where
  | stay (m : Move) : Step w m w
  | learnerTakes {i : Nat} {learner : Learner} {seen g : Nat} {k : Knowledge}
      (hdesk : w.learners[i]? = some ⟨learner, seen, none⟩)
      (hread : w.hub.snapshots.read seen = .newer g k) :
      Step w (.learnerReads i) { w with learners := w.learners.set i ⟨learner, g, some (g, k)⟩ }
  | offered {i : Nat} {learner : Learner} {seen g : Nat} {k : Knowledge} {cs : Candidates}
      (hdesk : w.learners[i]? = some ⟨learner, seen, some (g, k)⟩)
      (hsuggestion : (learner.call k).suggestion = .ok cs) :
      Step w (.learnerAnswers i)
        { w with learners := w.learners.set i ⟨(learner.call k).learner, seen, none⟩
                 candidates := (w.candidates.offer (g, cs) fun pending => pending.1 ≤ g).2 }
  | failed {i : Nat} {d : LearnerDesk} (hdesk : w.learners[i]? = some d) (learner : Learner)
      (reports : List Report) :
      Step w (.learnerAnswers i)
        { w with learners := w.learners.set i ⟨learner, d.seen, none⟩, reports }
  | teacherTakes {i : Nat} {session : σ} {seen g : Nat} {job : Nat × Candidates}
      (hdesk : w.teachers[i]? = some ⟨session, seen, none⟩)
      (hread : w.candidates.read seen = .newer g job) :
      Step w (.teacherReads i) { w with teachers := w.teachers.set i ⟨session, g, some job⟩ }
  | checked {i : Nat} {d : TeacherDesk σ} (hdesk : w.teachers[i]? = some d) (session : σ)
      (reports : List Report) :
      Step w (.teacherAnswers i)
        { w with teachers := w.teachers.set i ⟨session, d.seen, none⟩, reports }
  | received (reports batch : List Report) : Step w .hubReceives { w with reports, batch }
  | applied {hub : Hub} (hsnapshots : w.hub.snapshots.Step hub.snapshots)
      (reports batch : List Report) (outcome : Option Outcome) :
      Step w .hubApplies { w with hub, reports, batch, outcome }
  | closedSnapshots :
      Step w .closeSnapshots { w with hub := { w.hub with snapshots := w.hub.snapshots.close } }
  | closedCandidates : Step w .closeCandidates { w with candidates := w.candidates.close }

theorem rel_self {ρ : Type} {R : ρ → ρ → Prop} (hrefl : ∀ r, R r r) (o : Option ρ) :
    Option.Rel R o o := by
  cases o with
  | none => exact .none
  | some r => exact .some (hrefl r)

theorem rel_map_set {δ ρ : Type} {R : ρ → ρ → Prop} (hrefl : ∀ r, R r r) {f : δ → ρ} {xs : List δ}
    {j : Nat} {d d' : δ} (hd : xs[j]? = some d) (hturn : R (f d) (f d')) (i : Nat) :
    Option.Rel R (xs[i]?.map f) ((xs.set j d')[i]?.map f) := by
  by_cases hij : j = i
  · subst hij
    rw [List.getElem?_set_self (List.getElem?_eq_some_iff.1 hd).1, hd]
    exact .some hturn
  · rw [List.getElem?_set_ne hij]
    exact rel_self hrefl _

theorem offer_cases (s : Slot (Nat × Candidates)) (g : Nat) (cs : Candidates) :
    (s.offer (g, cs) fun pending => pending.1 ≤ g).2 = s ∨
      (s.offer (g, cs) fun pending => pending.1 ≤ g).2 = s.publish (g, cs) ∧
        ∀ pending ∈ s.value, pending.1 ≤ g := by
  rw [Slot.offer]
  split
  · exact .inl rfl
  · next hreplaces =>
    refine .inr ⟨rfl, fun pending hpending => ?_⟩
    rw [Option.mem_def.1 hpending] at hreplaces
    simpa using hreplaces

section Step

variable {w w' : Workshop σ} {m : Move}

theorem Step.snapshots (h : w.Step m w') : w.hub.snapshots.Step w'.hub.snapshots := by
  cases h with
  | applied hsnapshots => exact hsnapshots
  | closedSnapshots => exact .close
  | _ => exact .stay

theorem Step.candidates (h : w.Step m w') : w.candidates.Step w'.candidates := by
  cases h with
  | @offered _ _ _ g _ cs =>
    dsimp only
    rcases offer_cases w.candidates g cs with hkept | ⟨hpublished, -⟩
    · rw [hkept]
      exact .stay
    · rw [hpublished]
      exact .publish _
  | closedCandidates => exact .close
  | _ => exact .stay

theorem Step.learner (h : w.Step m w') (i : Nat) : Option.Rel w.hub.snapshots.Turn
    (w.learners[i]?.map LearnerDesk.state) (w'.learners[i]?.map LearnerDesk.state) := by
  cases h with
  | learnerTakes hdesk hread => exact rel_map_set .stay hdesk (.take hread) i
  | offered hdesk => exact rel_map_set .stay hdesk (.finish ..) i
  | failed hdesk => exact rel_map_set .stay hdesk (.finish ..) i
  | _ => exact rel_self .stay _

theorem Step.teacher (h : w.Step m w') (i : Nat) : Option.Rel w.candidates.Turn
    (w.teachers[i]?.map TeacherDesk.state) (w'.teachers[i]?.map TeacherDesk.state) := by
  cases h with
  | teacherTakes hdesk hread => exact rel_map_set .stay hdesk (.take hread) i
  | checked hdesk => exact rel_map_set .stay hdesk (.finish ..) i
  | _ => exact rel_self .stay _

theorem Step.tagged (h : w.Step m w') (htagged : ∀ d ∈ w.learners, d.Tagged) :
    ∀ d ∈ w'.learners, d.Tagged := by
  have hfree (learner : Learner) (seen : Nat) : LearnerDesk.Tagged ⟨learner, seen, none⟩ := by
    rintro g k ⟨⟩
  cases h with
  | learnerTakes =>
    refine forall_mem_set htagged ?_
    rintro g k ⟨⟩
    rfl
  | offered => exact forall_mem_set htagged (hfree _ _)
  | failed => exact forall_mem_set htagged (hfree _ _)
  | _ => exact htagged

/-- A learner comes up with candidates for a snapshot. -/
def Suggests (w : Workshop σ) (i g : Nat) (k : Knowledge) (cs : Candidates) : Prop :=
  ∃ learner seen, w.learners[i]? = some ⟨learner, seen, some (g, k)⟩ ∧
    (learner.call k).suggestion = .ok cs

/-- The pending candidates stay, or a learner replaces them by its own from the same snapshot or a
newer one. -/
theorem Step.pending (h : w.Step m w') : w'.candidates.value = w.candidates.value ∨
    ∃ i g k cs, m = .learnerAnswers i ∧ w.Suggests i g k cs ∧
      w'.candidates.value = some (g, cs) ∧ ∀ pending ∈ w.candidates.value, pending.1 ≤ g := by
  cases h with
  | @offered i learner seen g k cs hdesk hsuggestion =>
    rcases offer_cases w.candidates g cs with hkept | ⟨hpublished, hle⟩
    · exact .inl (congrArg Slot.value hkept)
    · exact .inr ⟨i, g, k, cs, rfl, ⟨learner, seen, hdesk, hsuggestion⟩,
        congrArg Slot.value hpublished, hle⟩
  | _ => exact .inl rfl

end Step

variable [Session σ]

theorem step_move (w : Workshop σ) (m : Move) : w.Step m (w.move m) := by
  cases m with
  | learnerReads i =>
    rw [move, learnerReads]
    split
    · next hdesk =>
      split
      · next hread => exact .learnerTakes hdesk hread
      · exact .stay _
    · exact .stay _
  | learnerAnswers i =>
    rw [move, learnerAnswers]
    split
    · next hdesk =>
      dsimp only
      split
      · next hsuggestion => exact .offered hdesk hsuggestion
      · split
        · exact .failed hdesk _ _
        · exact .stay _
    · exact .stay _
  | teacherReads i =>
    rw [move, teacherReads]
    split
    · next hdesk =>
      split
      · next hread => exact .teacherTakes hdesk hread
      · exact .stay _
    · exact .stay _
  | teacherAnswers i =>
    rw [move, teacherAnswers]
    split
    · next hdesk =>
      split
      · exact .checked hdesk _ _
      · exact .stay _
    · exact .stay _
  | hubReceives =>
    rw [move, hubReceives]
    split
    · exact .received _ _
    · exact .stay _
  | hubApplies =>
    rw [move, hubApplies]
    split
    · split
      · next hbatch => exact .applied (Hub.snapshots_of_applyBatch hbatch) _ _ _
      · exact .applied .stay _ _ _
    · exact .stay _
  | closeSnapshots => exact .closedSnapshots
  | closeCandidates => exact .closedCandidates

end Workshop

/-! ## Channels -/

variable [Session σ] {α : Type}

/-- A slot of a workshop with its readers. -/
structure Channel (σ : Type) [Session σ] (α : Type) where
  slot : Workshop σ → Slot α
  /-- What each reader has seen last, and what it works on. -/
  reader : Workshop σ → Nat → Option (Nat × Option α)
  /-- The move in which a reader takes a value. -/
  reads : Nat → Move
  /-- The move that closes the slot. -/
  closes : Move
  slot_move : ∀ w m, (slot w).Step (slot (w.move m))
  slot_closes : ∀ w, slot (w.move closes) = (slot w).close
  reader_move : ∀ w m i, Option.Rel (slot w).Turn (reader w i) (reader (w.move m) i)
  reader_reads : ∀ {w i seen g a}, reader w i = some (seen, none) →
    (slot w).read seen = .newer g a → reader (w.move (reads i)) i = some (g, some a)

namespace Channel

open Workshop

/-- A reader that is free gets a value with its generation if it moves next. -/
def Receives (c : Channel σ α) (w : Workshop σ) (i g : Nat) (a : α) : Prop :=
  (∃ seen, c.reader w i = some (seen, none)) ∧ c.reader (w.move (c.reads i)) i = some (g, some a)

/-- A value was published as a generation: it was the first, or some move has put it into the slot
in the place of the generation before. -/
def Published (c : Channel σ α) (w : Workshop σ) (moves : List Move) (g : Nat) (a : α) : Prop :=
  (c.slot w).value = some a ∧ (c.slot w).generation = g ∨
    ∃ before m after, moves = before ++ m :: after ∧
      c.slot ((w.play before).move m) = (c.slot (w.play before)).publish a ∧
      (c.slot (w.play before)).generation + 1 = g

variable {c : Channel σ α} {w : Workshop σ} {moves : List Move} {i g : Nat} {a b : α}

theorem receives_iff :
    c.Receives w i g a ↔ (c.slot w).closed = false ∧ (c.slot w).value = some a ∧
      (c.slot w).generation = g ∧ ∃ seen < g, c.reader w i = some (seen, none) := by
  constructor
  · rintro ⟨⟨seen, hfree⟩, htaken⟩
    have hturn := c.reader_move w (c.reads i) i
    rw [hfree, htaken] at hturn
    cases hturn with
    | some hturn =>
      cases hturn with
      | take hread =>
        obtain ⟨hopen, hvalue, hg, hseen⟩ := Slot.read_eq_newer_iff.1 hread
        exact ⟨hopen, hvalue, hg, seen, hseen, hfree⟩
  · rintro ⟨hopen, hvalue, hg, seen, hseen, hfree⟩
    exact ⟨⟨seen, hfree⟩, c.reader_reads hfree (Slot.read_eq_newer_iff.2 ⟨hopen, hvalue, hg, hseen⟩)⟩

theorem later_play (c : Channel σ α) (w : Workshop σ) (moves : List Move) :
    (c.slot w).Later (c.slot (w.play moves)) := by
  induction moves generalizing w with
  | nil => exact ⟨Nat.le_refl _, id⟩
  | cons m moves ih => exact (c.slot_move w m).later.trans (ih _)

theorem seen_le_play {r r' : Nat × Option α} (hr : c.reader w i = some r)
    (hr' : c.reader (w.play moves) i = some r') : r.1 ≤ r'.1 := by
  induction moves generalizing w r with
  | nil =>
    cases hr.symm.trans hr'
    exact Nat.le_refl _
  | cons m moves ih =>
    have hturn := c.reader_move w m i
    rw [hr] at hturn
    generalize hnext : c.reader (w.move m) i = next at hturn
    cases hturn with
    | some hturn => exact hturn.seen_le.trans (ih hnext hr')

/-! ## What was published -/

theorem published_snoc_iff {m : Move} :
    c.Published w (moves ++ [m]) g a ↔ c.Published w moves g a ∨
      c.slot ((w.play moves).move m) = (c.slot (w.play moves)).publish a ∧
        (c.slot (w.play moves)).generation + 1 = g := by
  constructor
  · rintro (hfirst | ⟨before, m', after, hmoves, hpublish, hg⟩)
    · exact .inl (.inl hfirst)
    · rcases List.eq_nil_or_concat after with rfl | ⟨after, last, rfl⟩
      · obtain ⟨rfl, hm⟩ := List.append_inj' hmoves rfl
        cases hm
        exact .inr ⟨hpublish, hg⟩
      · rw [List.concat_eq_append, ← List.cons_append, ← List.append_assoc] at hmoves
        obtain ⟨rfl, -⟩ := List.append_inj' hmoves rfl
        exact .inl (.inr ⟨before, m', after, rfl, hpublish, hg⟩)
  · rintro ((hfirst | ⟨before, m', after, rfl, hpublish, hg⟩) | ⟨hpublish, hg⟩)
    · exact .inl hfirst
    · exact .inr ⟨before, m', after ++ [m], by simp, hpublish, hg⟩
    · exact .inr ⟨moves, m, [], rfl, hpublish, hg⟩

theorem Published.generation_le (h : c.Published w moves g a) :
    g ≤ (c.slot (w.play moves)).generation := by
  rcases h with ⟨-, rfl⟩ | ⟨before, m, after, rfl, hpublish, rfl⟩
  · exact (c.later_play w moves).generation_le
  · rw [play_append]
    have hlater := (c.later_play ((w.play before).move m) after).generation_le
    rwa [hpublish] at hlater

/-- A generation belongs to one value. -/
theorem Published.unique (ha : c.Published w moves g a) (hb : c.Published w moves g b) : a = b := by
  induction moves using List.reverseRecOn with
  | nil =>
    rcases ha with ⟨ha, -⟩ | ⟨before, m, after, hmoves, -⟩
    · rcases hb with ⟨hb, -⟩ | ⟨before, m, after, hmoves, -⟩
      · exact Option.some.inj (ha.symm.trans hb)
      · simp at hmoves
    · simp at hmoves
  | append_singleton moves m ih =>
    -- what was published before has a lower generation than what the last move publishes
    rcases published_snoc_iff.1 ha with ha | ⟨ha, hg⟩
    · rcases published_snoc_iff.1 hb with hb | ⟨-, hg⟩
      · exact ih ha hb
      · have := ha.generation_le
        omega
    · rcases published_snoc_iff.1 hb with hb | ⟨hb, -⟩
      · have := hb.generation_le
        omega
      · exact Option.some.inj (congrArg Slot.value (ha.symm.trans hb))

theorem published_value (h : (c.slot (w.play moves)).value = some a) :
    c.Published w moves (c.slot (w.play moves)).generation a := by
  induction moves using List.reverseRecOn with
  | nil => exact .inl ⟨h, rfl⟩
  | append_singleton moves m ih =>
    rw [play_snoc] at h ⊢
    rw [published_snoc_iff]
    generalize hnext : c.slot ((w.play moves).move m) = next at h ⊢
    cases hnext ▸ c.slot_move (w.play moves) m with
    | stay => exact .inl (ih h)
    | publish b =>
      cases h
      exact .inr ⟨rfl, rfl⟩
    | close => exact .inl (ih h)

/-- What a reader works on was published as the generation that it has seen last. -/
theorem published_reader (hfree : ∀ r, c.reader w i = some r → r.2 = none)
    (h : c.reader (w.play moves) i = some (g, some a)) : c.Published w moves g a := by
  induction moves using List.reverseRecOn generalizing g a with
  | nil => cases hfree _ h
  | append_singleton moves m ih =>
    have hturn := c.reader_move (w.play moves) m i
    rw [← play_snoc, h] at hturn
    generalize hreader : c.reader (w.play moves) i = r at hturn
    rw [published_snoc_iff]
    cases hturn with
    | some hturn =>
      cases hturn with
      | stay => exact .inl (ih hreader)
      | take hread =>
        obtain ⟨-, hvalue, rfl, -⟩ := Slot.read_eq_newer_iff.1 hread
        exact .inl (published_value hvalue)

/-! ## Forward -/

/-- A channel moves forward while some moves are made and then others. -/
structure MovesForward (c : Channel σ α) (w₀ : Workshop σ) (before after : List Move) : Prop where
  generation_le :
    (c.slot (w₀.play before)).generation ≤ (c.slot (w₀.play (before ++ after))).generation
  /-- A reader gets something if the slot is open and has something new. -/
  receives_iff : ∀ i g a, c.Receives (w₀.play before) i g a ↔
    (c.slot (w₀.play before)).closed = false ∧ (c.slot (w₀.play before)).value = some a ∧
      (c.slot (w₀.play before)).generation = g ∧
      ∃ seen < g, c.reader (w₀.play before) i = some (seen, none)
  /-- What it gets, and nothing else, was published as the generation. -/
  published : ∀ i g a, c.Receives (w₀.play before) i g a → ∀ b, c.Published w₀ before g b ↔ b = a
  /-- What it gets next is newer. -/
  increasing : ∀ i g a g' a', c.Receives (w₀.play before) i g a →
    c.Receives (w₀.play (before ++ c.reads i :: after)) i g' a' → g < g'
  /-- After the slot was closed, nobody gets anything. -/
  closed : c.closes ∈ before → ∀ i g a, ¬c.Receives (w₀.play before) i g a

theorem movesForward (c : Channel σ α) (w₀ : Workshop σ) (before after : List Move) :
    c.MovesForward w₀ before after where
  generation_le := by
    rw [play_append]
    exact (c.later_play _ after).generation_le
  receives_iff i g a := receives_iff
  published i g a h b := by
    obtain ⟨-, hvalue, rfl, -⟩ := receives_iff.1 h
    have ha := published_value hvalue
    exact ⟨fun hb => hb.unique ha, fun heq => heq ▸ ha⟩
  increasing i g a g' a' h h' := by
    rw [play_append] at h'
    obtain ⟨-, -, -, seen, hseen, hreader⟩ := receives_iff.1 h'
    exact (seen_le_play h.2 hreader).trans_lt hseen
  closed hclosed i g a h := by
    obtain ⟨earlier, later, rfl⟩ := List.append_of_mem hclosed
    rw [play_append] at h
    have hlater := (c.later_play ((w₀.play earlier).move c.closes) later).closed
    rw [c.slot_closes] at hlater
    exact Bool.false_ne_true ((receives_iff.1 h).1.symm.trans (hlater rfl))

end Channel

/-! ## The two slots -/

namespace Workshop

def snapshotChannel (σ : Type) [Session σ] : Channel σ Knowledge where
  slot w := w.hub.snapshots
  reader w i := w.learners[i]?.map LearnerDesk.state
  reads := .learnerReads
  closes := .closeSnapshots
  slot_move w m := (w.step_move m).snapshots
  slot_closes _ := rfl
  reader_move w m := (w.step_move m).learner
  reader_reads := by
    intro w i seen g k hreader hread
    obtain ⟨⟨learner, seen', job⟩, hdesk, hstate⟩ := Option.map_eq_some_iff.1 hreader
    obtain ⟨rfl, hjob⟩ := Prod.mk.inj hstate
    obtain rfl : job = none := Option.map_eq_none_iff.1 hjob
    simp only [move, learnerReads, hdesk, hread]
    rw [List.getElem?_set_self (List.getElem?_eq_some_iff.1 hdesk).1]
    rfl

def candidateChannel (σ : Type) [Session σ] : Channel σ (Nat × Candidates) where
  slot := candidates
  reader w i := w.teachers[i]?.map TeacherDesk.state
  reads := .teacherReads
  closes := .closeCandidates
  slot_move w m := (w.step_move m).candidates
  slot_closes _ := rfl
  reader_move w m := (w.step_move m).teacher
  reader_reads := by
    intro w i seen g job hreader hread
    obtain ⟨⟨session, seen', work⟩, hdesk, hstate⟩ := Option.map_eq_some_iff.1 hreader
    obtain ⟨rfl, rfl⟩ := Prod.mk.inj hstate
    simp only [move, teacherReads, hdesk, hread]
    rw [List.getElem?_set_self (List.getElem?_eq_some_iff.1 hdesk).1]
    rfl

variable {w w₀ : Workshop σ} {moves : List Move} {g : Nat} {cs : Candidates}

/-- The snapshot of the pending candidates is never an older one. -/
theorem tag_le_play (h : w.candidates.value = some (g, cs)) (moves : List Move) :
    ∃ g' cs', (w.play moves).candidates.value = some (g', cs') ∧ g ≤ g' := by
  induction moves generalizing w g cs with
  | nil => exact ⟨g, cs, h, Nat.le_refl _⟩
  | cons m moves ih =>
    rcases (w.step_move m).pending with hkept | ⟨_, g', _, cs', -, -, hvalue, hle⟩
    · exact ih (hkept.trans h)
    · obtain ⟨g'', cs'', hlast, hle'⟩ := ih hvalue
      exact ⟨g'', cs'', hlast, (hle _ h).trans hle'⟩

theorem tagged_play (h : ∀ d ∈ w.learners, d.Tagged) (moves : List Move) :
    ∀ d ∈ (w.play moves).learners, d.Tagged := by
  induction moves generalizing w with
  | nil => exact h
  | cons m moves ih => exact ih ((w.step_move m).tagged h)

/-- What a learner suggests is tagged with the generation as which its snapshot was published. -/
theorem published_of_suggests (hstart : ∀ d ∈ w₀.learners, d.job = none) {i : Nat} {k : Knowledge}
    (h : (w₀.play moves).Suggests i g k cs) : (snapshotChannel σ).Published w₀ moves g k := by
  obtain ⟨learner, seen, hdesk, -⟩ := h
  have htagged : ∀ d ∈ w₀.learners, d.Tagged := by
    intro d hd g k hjob
    cases (hstart d hd).symm.trans hjob
  obtain rfl : seen = g := tagged_play htagged moves _ (List.mem_of_getElem? hdesk) g k rfl
  refine Channel.published_reader (fun r hr => ?_) (i := i) ?_
  · obtain ⟨d, hd, rfl⟩ := Option.map_eq_some_iff.1 hr
    exact Option.map_eq_none_iff.2 (hstart d (List.mem_of_getElem? hd))
  · exact congrArg (Option.map LearnerDesk.state) hdesk

/-- Pending candidates come from a learner that has worked on the snapshot with their tag. -/
theorem suggested_of_pending (hstart : ∀ d ∈ w₀.learners, d.job = none)
    (hempty : w₀.candidates.value = none)
    (h : (w₀.play moves).candidates.value = some (g, cs)) :
    ∃ earlier i later k, moves = earlier ++ .learnerAnswers i :: later ∧
      (w₀.play earlier).Suggests i g k cs ∧ (snapshotChannel σ).Published w₀ earlier g k := by
  induction moves using List.reverseRecOn with
  | nil => cases hempty.symm.trans h
  | append_singleton moves m ih =>
    rw [play_snoc] at h
    rcases ((w₀.play moves).step_move m).pending with
      hkept | ⟨i, g', k, cs', rfl, hsuggests, hvalue, -⟩
    · obtain ⟨earlier, i, later, k, rfl, hrest⟩ := ih (hkept.symm.trans h)
      exact ⟨earlier, i, later ++ [m], k, by simp, hrest⟩
    · cases hvalue.symm.trans h
      exact ⟨moves, i, [], k, rfl, hsuggests, published_of_suggests hstart hsuggests⟩

/-- However many learners, teachers and the hub move, and whenever the slots are closed: both slots
and their readers move forward, the snapshot of the pending candidates is never an older one, and
pending candidates were suggested from the one snapshot that was published under their tag. -/
theorem slots_move_forward (system : ClauseSystem) (learners : List Learner) (sessions : List σ)
    (before after : List Move) :
    let w₀ := start system learners sessions
    (snapshotChannel σ).MovesForward w₀ before after ∧
    (candidateChannel σ).MovesForward w₀ before after ∧
    ∀ g cs, (w₀.play before).candidates.value = some (g, cs) →
      (∃ g' cs', (w₀.play (before ++ after)).candidates.value = some (g', cs') ∧ g ≤ g') ∧
      ∃ earlier i later k, before = earlier ++ .learnerAnswers i :: later ∧
        (w₀.play earlier).Suggests i g k cs ∧
        ∀ k', (snapshotChannel σ).Published w₀ earlier g k' ↔ k' = k := by
  intro w₀
  refine ⟨Channel.movesForward _ w₀ before after, Channel.movesForward _ w₀ before after,
    fun g cs h => ⟨?_, ?_⟩⟩
  · rw [play_append]
    exact tag_le_play h after
  · have hstart : ∀ d ∈ w₀.learners, d.job = none := List.forall_mem_map.2 fun _ _ => rfl
    obtain ⟨earlier, i, later, k, hmoves, hsuggests, hpublished⟩ :=
      suggested_of_pending hstart rfl h
    exact ⟨earlier, i, later, k, hmoves, hsuggests,
      fun k' => ⟨fun hk' => hk'.unique hpublished, fun heq => heq ▸ hpublished⟩⟩

def waitingLoop : Automaton where
  decls := [⟨"x", .int⟩]
  locations := ["start", "loop", "error"]
  entry := 0
  error := 2
  edges := [⟨0, 1, []⟩, ⟨1, 1, []⟩, ⟨1, 2, [.assume (.rel .lt (.var "x") (.int 0))]⟩]

/-- A learner that is quick to see its error, and one that is slow to answer. -/
def quickAndSlow : List Learner :=
  [.scripted "quick" [.ok .top, .ok .bottom], .scripted "slow" [.ok .top]]

def waitingBox : BoundedSession := { signature := .ofDecls waitingLoop.decls, radius := 1 }

/-- Both learners read the first snapshot, and the quick one's candidates are rejected. -/
def firstRound : List Move :=
  [.learnerReads 0, .learnerReads 1, .learnerAnswers 0, .teacherReads 0, .teacherAnswers 0,
    .hubReceives, .hubApplies]

/-- The quick learner answers on the second snapshot before the slow one answers on the first. -/
def overtaking : List Move := [.learnerReads 0, .learnerAnswers 0, .learnerAnswers 1]

/-- The quick learner gets two snapshots, and its candidates for the second one stay when the slow
learner comes with its own for the first. -/
theorem slow_learner_overtaken :
    let snapshots := snapshotChannel BoundedSession
    let candidates := candidateChannel BoundedSession
    ∃ s g k g' k', ClauseSystem.ofAutomaton waitingLoop = .ok s ∧
      let w := start s quickAndSlow [waitingBox]
      snapshots.Receives w 0 g k ∧ snapshots.Receives (w.play firstRound) 0 g' k' ∧ g < g' ∧
      (∀ b, snapshots.Published w firstRound g' b ↔ b = k') ∧
      (∀ i g a, ¬snapshots.Receives (w.play (firstRound ++ [.closeSnapshots])) i g a) ∧
      (w.play firstRound).candidates.value = some (1, .top) ∧
      (∃ g cs, (w.play (firstRound ++ overtaking)).candidates.value = some (g, cs) ∧ 1 ≤ g) ∧
      candidates.Receives (w.play (firstRound ++ overtaking)) 0 2 (2, .bottom) ∧
      ∃ earlier i later k, firstRound ++ overtaking = earlier ++ .learnerAnswers i :: later ∧
        (w.play earlier).Suggests i 2 k .bottom ∧
        ∀ b, snapshots.Published w earlier 2 b ↔ b = k := by
  intro snapshots candidates
  obtain ⟨s, hs, hopen, hvalue, hgeneration, hreader, htop, hopen', hvalue', hgeneration',
      hreader', hbottom⟩ : ∃ s, ClauseSystem.ofAutomaton waitingLoop = .ok s ∧
        let w := (start s quickAndSlow [waitingBox]).play firstRound
        let w' := (start s quickAndSlow [waitingBox]).play (firstRound ++ overtaking)
        (snapshots.slot w).closed = false ∧ (snapshots.slot w).value.isSome = true ∧
        (snapshots.slot w).generation = 2 ∧
        (snapshots.reader w 0).map (fun r => (r.1, r.2.isSome)) = some (1, false) ∧
        w.candidates.value = some (1, .top) ∧
        (candidates.slot w').closed = false ∧ (candidates.slot w').value = some (2, .bottom) ∧
        (candidates.slot w').generation = 2 ∧ candidates.reader w' 0 = some (1, none) ∧
        w'.candidates.value = some (2, .bottom) :=
    ⟨_, rfl, by decide +kernel⟩
  have hfirst : snapshots.Receives (start s quickAndSlow [waitingBox]) 0 1 {} := ⟨⟨0, rfl⟩, rfl⟩
  obtain ⟨k', hk'⟩ := Option.isSome_iff_exists.1 hvalue
  obtain ⟨⟨seen, job⟩, hreader, hstate⟩ := Option.map_eq_some_iff.1 hreader
  obtain ⟨rfl, hjob⟩ := Prod.mk.inj hstate
  obtain rfl : job = none := Option.not_isSome_iff_eq_none.1 (by simp [hjob])
  have hsecond := Channel.receives_iff.2 ⟨hopen, hk', hgeneration, 1, Nat.lt_succ_self 1, hreader⟩
  have htaken :=
    Channel.receives_iff.2 ⟨hopen', hvalue', hgeneration', 1, Nat.lt_succ_self 1, hreader'⟩
  have hforward := (slots_move_forward s quickAndSlow [waitingBox] [] firstRound.tail).1
  have hpublished := (slots_move_forward s quickAndSlow [waitingBox] firstRound overtaking).1
  have htag := (slots_move_forward s quickAndSlow [waitingBox] firstRound overtaking).2.2 _ _ htop
  have hsuggested :=
    (slots_move_forward s quickAndSlow [waitingBox] (firstRound ++ overtaking) []).2.2 _ _ hbottom
  have hclosed :=
    (slots_move_forward s quickAndSlow [waitingBox] (firstRound ++ [.closeSnapshots]) []).1
  exact ⟨s, 1, {}, 2, k', hs, hfirst, hsecond, hforward.increasing 0 _ _ _ _ hfirst hsecond,
    hpublished.published _ _ _ hsecond, hclosed.closed (List.mem_append_right _ List.mem_cons_self),
    htop, htag.1, htaken, hsuggested.2⟩

end Workshop

end LoopInvariant
