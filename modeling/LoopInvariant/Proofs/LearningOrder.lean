import LoopInvariant.DecisionTree.Growth
import LoopInvariant.Proofs.LeastLabels
/-!
# Learning depends on the set of constraints

Knowledge that holds the same constraints is alike, whatever its history: the order in which they
came, the reasons of labels and the constraints that were retired. A learner makes out no difference.
It looks at labels only through their polarity, and its guesses lead to a contradiction on both sides
or make knowledge that is alike again.
-/

namespace LoopInvariant

namespace Knowledge

variable {k k' : Knowledge}

/-- Knowledge of the same constraints. -/
structure Alike (k k' : Knowledge) : Prop where
  left : k.Reachable
  right : k'.Reachable
  constraints : ∀ c, c ∈ k.constraints ↔ c ∈ k'.constraints

theorem Alike.datapoints_eq (h : Alike k k') : k.datapoints = k'.datapoints := by
  rw [datapoints, (h.left.decision?_congr h.right h.constraints).1, datapoints]

theorem Alike.decision?_eq (h : Alike k k') (d : Datapoint) : k.decision? d = k'.decision? d :=
  (h.left.decision?_congr h.right h.constraints).2 d

theorem isTrue_eq_decision? (k : Knowledge) (d : Datapoint) :
    k.isTrue d = (k.decision? d).any (·.1) := by
  rw [isTrue, decision?, Option.any_map]

theorem isFalse_eq_decision? (k : Knowledge) (d : Datapoint) :
    k.isFalse d = (k.decision? d).any (!·.1) := by
  rw [isFalse, decision?, Option.any_map]

theorem isNone_label?_eq_decision? (k : Knowledge) (d : Datapoint) :
    (k.label? d).isNone = (k.decision? d).isNone := by
  rw [decision?, Option.isNone_map]

theorem Alike.isTrue_eq (h : Alike k k') : k.isTrue = k'.isTrue := by
  funext d
  rw [isTrue_eq_decision?, h.decision?_eq, isTrue_eq_decision?]

theorem Alike.isFalse_eq (h : Alike k k') : k.isFalse = k'.isFalse := by
  funext d
  rw [isFalse_eq_decision?, h.decision?_eq, isFalse_eq_decision?]

theorem Alike.isNone_label?_eq (h : Alike k k') (d : Datapoint) :
    (k.label? d).isNone = (k'.label? d).isNone := by
  rw [isNone_label?_eq_decision?, h.decision?_eq, isNone_label?_eq_decision?]

/-- Guesses contradict both or neither, and leave them alike. -/
theorem Alike.assume (h : Alike k k') (cs : List Constraint) :
    (∃ e e', k.assume cs = .error e ∧ k'.assume cs = .error e') ∨
      ∃ n n', k.assume cs = .ok n ∧ k'.assume cs = .ok n' ∧ Alike n n' := by
  have hiff : (∃ e, k.assume cs = .error e) ↔ ∃ e, k'.assume cs = .error e := by
    rw [h.left.assume_eq_error_iff, h.right.assume_eq_error_iff]
    simp only [h.constraints]
  cases hk : k.assume cs with
  | error e =>
    obtain ⟨e', he'⟩ := hiff.1 ⟨e, hk⟩
    exact .inl ⟨e, e', rfl, he'⟩
  | ok n =>
    cases hk' : k'.assume cs with
    | error e' =>
      obtain ⟨e, he⟩ := hiff.2 ⟨e', hk'⟩
      cases hk.symm.trans he
    | ok n' =>
      obtain ⟨hn, hmem⟩ := h.left.assume hk
      obtain ⟨hn', hmem'⟩ := h.right.assume hk'
      refine .inr ⟨n, n', rfl, rfl, hn, hn', fun c => ?_⟩
      rw [hmem, hmem', h.constraints]

end Knowledge

/-! ## Growing on both sides -/

namespace TreeLearner

variable {k k' : Knowledge}

theorem labelAll?_congr (h : Knowledge.Alike k k') (points : List Datapoint) (polarity : Bool) :
    (labelAll? k points polarity = none ∧ labelAll? k' points polarity = none) ∨
      ∃ n n', labelAll? k points polarity = some n ∧ labelAll? k' points polarity = some n' ∧
        Knowledge.Alike n n' := by
  have hopened : (points.filter fun p => (k.label? p).isNone) =
      points.filter fun p => (k'.label? p).isNone := by
    simp only [h.isNone_label?_eq]
  have hboth : ∀ cs, ((k.assume cs).toOption = none ∧ (k'.assume cs).toOption = none) ∨
      ∃ n n', (k.assume cs).toOption = some n ∧ (k'.assume cs).toOption = some n' ∧
        Knowledge.Alike n n' := by
    intro cs
    rcases h.assume cs with ⟨e, e', he, he'⟩ | ⟨n, n', hn, hn', halike⟩
    · rw [he, he']
      exact .inl ⟨rfl, rfl⟩
    · rw [hn, hn']
      exact .inr ⟨n, n', rfl, rfl, halike⟩
  rw [labelAll?, labelAll?, h.isTrue_eq, h.isFalse_eq, hopened]
  by_cases hopposed : points.any (if polarity = true then k'.isFalse else k'.isTrue) = true
  · simp only [hopposed, if_true]
    exact .inl ⟨trivial, trivial⟩
  · simp only [hopposed]
    cases polarity with
    | true => exact hboth _
    | false => exact hboth _

theorem leaf?_congr (h : Knowledge.Alike k k') (points : List Datapoint) :
    (leaf? k points = none ∧ leaf? k' points = none) ∨
      ∃ inside n n', leaf? k points = some (inside, n) ∧ leaf? k' points = some (inside, n') ∧
        Knowledge.Alike n n' := by
  rw [leaf?, leaf?, h.isTrue_eq, h.isFalse_eq]
  generalize decide ((points.filter k'.isFalse).length ≤ (points.filter k'.isTrue).length) = first
  rcases labelAll?_congr h points first with ⟨hk, hk'⟩ | ⟨n, n', hk, hk', halike⟩
  · rcases labelAll?_congr h points !first with ⟨hn, hn'⟩ | ⟨n, n', hn, hn', halike⟩
    · exact .inl ⟨by simp [hk, hn], by simp [hk', hn']⟩
    · exact .inr ⟨!first, n, n', by simp [hk, hn], by simp [hk', hn'], halike⟩
  · exact .inr ⟨first, n, n', by simp [hk], by simp [hk'], halike⟩

theorem split_congr (l : TreeLearner) (h : Knowledge.Alike k k') (points : List Datapoint) :
    l.split k points = l.split k' points := by
  have hdisorder : disorder k = disorder k' := by
    funext side
    rw [disorder, disorder, h.isTrue_eq, h.isFalse_eq]
  have hsplit : splitOn? k points = splitOn? k' points := by
    funext t
    rw [splitOn?, splitOn?, hdisorder]
  rw [split, split, hsplit]

/-- The same tree grows from knowledge that is alike, or the same error comes. -/
theorem grow_congr (l : TreeLearner) (h : Knowledge.Alike k k') (depth : Nat)
    (points : List Datapoint) :
    (∃ e, l.grow depth k points = .error e ∧ l.grow depth k' points = .error e) ∨
      ∃ tree n n', l.grow depth k points = .ok (tree, n) ∧ l.grow depth k' points = .ok (tree, n') ∧
        Knowledge.Alike n n' := by
  induction depth generalizing k k' points with
  | zero => exact .inl ⟨_, rfl, rfl⟩
  | succ depth ih =>
    rw [grow, grow, split_congr l h]
    rcases leaf?_congr h points with ⟨hk, hk'⟩ | ⟨inside, n, n', hk, hk', halike⟩
    · rw [hk, hk']
      cases l.split k' points with
      | error e => exact .inl ⟨e, rfl, rfl⟩
      | ok s =>
        rcases ih h s.yes with ⟨e, hyes, hyes'⟩ | ⟨yes, n, n', hyes, hyes', halike⟩
        · exact .inl ⟨e, by simp [hyes], by simp [hyes']⟩
        · rcases ih halike s.no with ⟨e, hno, hno'⟩ | ⟨no, m, m', hno, hno', halike'⟩
          · exact .inl ⟨e, by simp [hyes, hno], by simp [hyes', hno']⟩
          · exact .inr ⟨.node s.decision yes no, m, m', by simp [hyes, hno], by simp [hyes', hno'],
              halike'⟩
    · rw [hk, hk']
      exact .inr ⟨.leaf inside, n, n', rfl, rfl, halike⟩

theorem learn_congr (l : TreeLearner) (h : Knowledge.Alike k k') : l.learn k = l.learn k' := by
  rw [learn, learn, h.datapoints_eq]
  rcases grow_congr l h (k'.datapoints.length + 1) k'.datapoints with
    ⟨e, hk, hk'⟩ | ⟨tree, n, n', hk, hk', -⟩
  · rw [hk, hk']
  · rw [hk, hk']
    rfl

end TreeLearner

/-! ## Histories -/

inductive Edit where
  | add (c : Constraint)
  | simplify
  deriving DecidableEq

namespace Knowledge

variable {k k' : Knowledge}

def replay (k : Knowledge) : List Edit → Except Contradiction Knowledge
  | [] => .ok k
  | .add c :: edits => k.insert c >>= fun r => r.2.replay edits
  | .simplify :: edits => k.simplify.2.replay edits

/-- A history without a contradiction leaves the constraints that it adds. -/
theorem Reachable.replay {edits : List Edit} (h : k.Reachable) (hrun : k.replay edits = .ok k') :
    k'.Reachable ∧ ∀ c, c ∈ k'.constraints ↔ c ∈ k.constraints ∨ .add c ∈ edits := by
  induction edits generalizing k with
  | nil =>
    cases hrun
    exact ⟨h, by simp⟩
  | cons edit edits ih =>
    cases edit with
    | add c =>
      rw [Knowledge.replay] at hrun
      obtain ⟨⟨added, next⟩, hinsert, hrun⟩ := bind_eq_ok.1 hrun
      obtain ⟨hreachable, hmem⟩ := ih (h.insert hinsert) hrun
      refine ⟨hreachable, fun c' => ?_⟩
      rw [hmem, (h.saturated.insert hinsert).2, List.mem_cons, Edit.add.injEq, or_assoc]
    | simplify =>
      rw [Knowledge.replay] at hrun
      obtain ⟨hreachable, hmem⟩ := ih h.simplify hrun
      refine ⟨hreachable, fun c' => ?_⟩
      rw [hmem, List.mem_cons]
      simp [Knowledge.simplify]

end Knowledge

/-- What is learned depends on the set of constraints only: not on the order in which they were added,
nor on when constraints were retired. -/
theorem learn_eq_of_same_constraints (l : TreeLearner) {edits edits' : List Edit} {k k' : Knowledge}
    (hk : Knowledge.replay {} edits = .ok k) (hk' : Knowledge.replay {} edits' = .ok k')
    (hsame : ∀ c, Edit.add c ∈ edits ↔ Edit.add c ∈ edits') : l.learn k = l.learn k' := by
  obtain ⟨hreachable, hmem⟩ := Knowledge.Reachable.empty.replay hk
  obtain ⟨hreachable', hmem'⟩ := Knowledge.Reachable.empty.replay hk'
  apply TreeLearner.learn_congr l
  refine ⟨hreachable, hreachable', fun c => ?_⟩
  rw [hmem, hmem', hsame]

def reachedAndFailing : List Edit :=
  [.add ⟨[], some ⟨0, .ofList [("x", .int 1)]⟩, .clause 0⟩, .simplify,
    .add ⟨[⟨0, .ofList [("x", .int 1)]⟩], some ⟨0, .ofList [("x", .int 2)]⟩, .clause 1⟩,
    .add ⟨[⟨0, .ofList [("x", .int 5)]⟩], none, .clause 2⟩]

/-- Backwards, and with nothing to retire when that is done, the same tree is learned. -/
theorem reachedAndFailing_backwards :
    ∃ k k', Knowledge.replay {} reachedAndFailing = .ok k ∧
      Knowledge.replay {} (.simplify :: reachedAndFailing.reverse.filter (· ≠ .simplify)) = .ok k' ∧
      k.retired.size = 1 ∧ k'.retired.size = 0 ∧
      TreeLearner.learn { decls := [⟨"x", .int⟩] } k =
        TreeLearner.learn { decls := [⟨"x", .int⟩] } k' ∧
      (TreeLearner.learn { decls := [⟨"x", .int⟩] } k).isOk = true := by
  have hrun : (Knowledge.replay {} reachedAndFailing).toOption.any (fun k =>
      k.retired.size == 1 && (TreeLearner.learn { decls := [⟨"x", .int⟩] } k).isOk) = true ∧
      (Knowledge.replay {}
        (.simplify :: reachedAndFailing.reverse.filter (· ≠ .simplify))).toOption.any
          (fun k => k.retired.size == 0) = true := by decide +kernel
  obtain ⟨k, hk, hlearned⟩ := (Option.any_eq_true ..).1 hrun.1
  obtain ⟨k', hk', hretired'⟩ := (Option.any_eq_true ..).1 hrun.2
  rw [Bool.and_eq_true, beq_iff_eq] at hlearned
  rw [beq_iff_eq] at hretired'
  have hk := toOption_eq_some_iff.1 hk
  have hk' := toOption_eq_some_iff.1 hk'
  refine ⟨k, k', hk, hk', hlearned.1, hretired', ?_, hlearned.2⟩
  exact learn_eq_of_same_constraints _ hk hk' (by simp)

end LoopInvariant
