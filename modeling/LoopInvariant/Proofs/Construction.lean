import LoopInvariant.Proofs.Separation
import Mathlib.Algebra.Group.Nat.Defs
/-!
# Trees under construction

A tree can be grown without recursion. The nodes are numbered, a stack holds the numbers of those to
be worked on, and each turn makes a node a leaf or a decision between two new nodes. When the stack
is empty, the tree is read off the nodes. This ends with what `TreeLearner.learn` gives, whatever is
known: a tree of sets of datapoints that get smaller from level to level bounds the number of turns,
and no node that is read off was left out.
-/

namespace LoopInvariant

/-- A node of a tree under construction. The sides of a decision are given by their numbers. -/
inductive BuildNode where
  | pending (points : List Datapoint)
  | leaf (inside : Bool)
  | decision (d : Decision) (yes no : Nat)

/-- A tree under construction, with the numbers of the nodes to be worked on next. -/
structure Construction where
  knowledge : Knowledge
  arena : List BuildNode
  stack : List Nat

namespace Construction

def start (k : Knowledge) : Construction := ⟨k, [.pending k.datapoints], [0]⟩

def divide (arena : List BuildNode) (i : Nat) (s : TreeLearner.Split) : List BuildNode :=
  (arena ++ [BuildNode.pending s.yes, BuildNode.pending s.no]).set i
    (.decision s.decision arena.length (arena.length + 1))

/-- Work on a node: make it a leaf, or a decision between two pending nodes, the true side on top of
the stack. A node that was worked on before becomes a leaf. Gives nothing if there is no such node. -/
def turn (l : TreeLearner) (c : Construction) (i : Nat) : Option (Except LearnError Construction) :=
  match c.arena[i]? with
  | none => none
  | some (.pending points) =>
    match TreeLearner.leaf? c.knowledge points with
    | some (inside, next) =>
      some (.ok { c with knowledge := next, arena := c.arena.set i (.leaf inside) })
    | none =>
      match l.split c.knowledge points with
      | .error e => some (.error e)
      | .ok s =>
        some (.ok { c with
          arena := divide c.arena i s
          stack := c.arena.length :: (c.arena.length + 1) :: c.stack })
  | some _ => some (.ok { c with arena := c.arena.set i (.leaf true) })

/-- Take turns until the stack is empty. Gives nothing if there are too few. -/
def run (l : TreeLearner) : Nat → Construction → Option (Except LearnError (List BuildNode))
  | 0, _ => none
  | turns + 1, c =>
    match c.stack with
    | [] => some (.ok c.arena)
    | i :: stack =>
      match turn l { c with stack } i with
      | none => none
      | some (.error e) => some (.error e)
      | some (.ok c) => run l turns c

/-- Read off the tree below a node. Gives nothing if a node in it is pending. -/
def freeze (arena : List BuildNode) : Nat → Nat → Option DecisionTree
  | 0, _ => none
  | depth + 1, i =>
    match arena[i]? with
    | none => none
    | some (.pending _) => none
    | some (.leaf inside) => some (.leaf inside)
    | some (.decision d yes no) =>
      match freeze arena depth yes, freeze arena depth no with
      | some yes, some no => some (.node d yes no)
      | _, _ => none

end Construction

/-- Construct a tree that sorts all registered datapoints. Gives nothing if there are too few turns
or a node is left out. -/
def TreeLearner.construct (l : TreeLearner) (turns : Nat) (k : Knowledge) :
    Option (Except LearnError DecisionTree) :=
  match Construction.run l turns (.start k) with
  | none => none
  | some (.error e) => some (.error e)
  | some (.ok arena) => (Construction.freeze arena turns 0).map .ok

namespace Construction

variable {l : TreeLearner} {k next : Knowledge} {arena arena' : List BuildNode} {stack : List Nat}
  {i depth turns : Nat} {points : List Datapoint} {tree : DecisionTree} {e : LearnError}

/-! ## Turns -/

theorem run_leaf {inside : Bool} (hpending : arena[i]? = some (.pending points))
    (hleaf : TreeLearner.leaf? k points = some (inside, next)) :
    run l (turns + 1) ⟨k, arena, i :: stack⟩ =
      run l turns ⟨next, arena.set i (.leaf inside), stack⟩ := by
  simp only [run, turn, hpending, hleaf]

theorem run_fail (hpending : arena[i]? = some (.pending points))
    (hleaf : TreeLearner.leaf? k points = none) (hsplit : l.split k points = .error e) :
    run l (turns + 1) ⟨k, arena, i :: stack⟩ = some (.error e) := by
  simp only [run, turn, hpending, hleaf, hsplit]

theorem run_divide {s : TreeLearner.Split} (hpending : arena[i]? = some (.pending points))
    (hleaf : TreeLearner.leaf? k points = none) (hsplit : l.split k points = .ok s) :
    run l (turns + 1) ⟨k, arena, i :: stack⟩ =
      run l turns ⟨k, divide arena i s, arena.length :: (arena.length + 1) :: stack⟩ := by
  simp only [run, turn, hpending, hleaf, hsplit]

theorem length_divide (arena : List BuildNode) (i : Nat) (s : TreeLearner.Split) :
    (divide arena i s).length = arena.length + 2 := by
  simp [divide]

section Divide

variable {s : TreeLearner.Split} (hi : i < arena.length)

include hi

theorem divide_self :
    (divide arena i s)[i]? =
      some (.decision s.decision arena.length (arena.length + 1)) := by
  rw [divide, List.getElem?_set_self (by rw [List.length_append]; omega)]

theorem divide_yes : (divide arena i s)[arena.length]? = some (.pending s.yes) := by
  rw [divide, List.getElem?_set_ne (by omega), List.getElem?_append_right (Nat.le_refl _)]
  simp

theorem divide_no : (divide arena i s)[arena.length + 1]? = some (.pending s.no) := by
  rw [divide, List.getElem?_set_ne (by omega), List.getElem?_append_right (by omega)]
  simp

end Divide

theorem divide_of_ne {s : TreeLearner.Split} {j : Nat} (hj : j < arena.length) (hne : j ≠ i) :
    (divide arena i s)[j]? = arena[j]? := by
  rw [divide, List.getElem?_set_ne (Ne.symm hne), List.getElem?_append_left hj]

/-! ## A node with all that comes below it -/

/-- What becomes of the nodes until one is finished with all that comes below it. Only this node
changes and new ones are added, and they are all that the tree is read off. -/
structure Built (arena : List BuildNode) (i : Nat) (arena' : List BuildNode) (tree : DecisionTree)
    (depth : Nat) : Prop where
  length_le : arena.length ≤ arena'.length
  kept : ∀ j < arena.length, j ≠ i → arena'[j]? = arena[j]?
  freeze_eq : ∀ other : List BuildNode,
    (∀ j < arena'.length, j = i ∨ arena.length ≤ j → other[j]? = arena'[j]?) →
      ∀ d, depth ≤ d → freeze other d i = some tree

theorem built_leaf (hi : i < arena.length) (inside : Bool) (depth : Nat) :
    Built arena i (arena.set i (.leaf inside)) (.leaf inside) (depth + 1) where
  length_le := by rw [List.length_set]
  kept := by
    intro j _ hne
    exact List.getElem?_set_ne (Ne.symm hne)
  freeze_eq := by
    intro other hother d hd
    obtain ⟨d, rfl⟩ : ∃ n, d = n + 1 := ⟨d - 1, by omega⟩
    have hself := hother i (by rwa [List.length_set]) (.inl rfl)
    rw [List.getElem?_set_self hi] at hself
    rw [freeze, hself]

/-- The false side waits while the true side is finished. -/
theorem Built.pending_no {s : TreeLearner.Split} (hi : i < arena.length)
    (h : Built (divide arena i s) arena.length arena' tree depth) :
    arena'[arena.length + 1]? = some (.pending s.no) := by
  rw [h.kept _ (by rw [length_divide]; omega) (by omega), divide_no hi]

theorem built_node {s : TreeLearner.Split} {arena₁ arena₂ : List BuildNode}
    {yes no : DecisionTree} (hi : i < arena.length)
    (hyes : Built (divide arena i s) arena.length arena₁ yes depth)
    (hno : Built arena₁ (arena.length + 1) arena₂ no depth) :
    Built arena i arena₂ (.node s.decision yes no) (depth + 1) := by
  have hlength := length_divide arena i s
  have hlength₁ := hyes.length_le
  have hlength₂ := hno.length_le
  have hkept : ∀ j < arena.length, arena₂[j]? = (divide arena i s)[j]? := by
    intro j hj
    rw [hno.kept j (by omega) (by omega), hyes.kept j (by omega) (by omega)]
  refine ⟨by omega, fun j hj hne => ?_, fun other hother d hd => ?_⟩
  · rw [hkept j hj, divide_of_ne hj hne]
  · obtain ⟨d, rfl⟩ : ∃ n, d = n + 1 := ⟨d - 1, by omega⟩
    have hself := hother i (by omega) (.inl rfl)
    rw [hkept i hi, divide_self hi] at hself
    have hfreeze : freeze other d arena.length = some yes := by
      refine hyes.freeze_eq other (fun j hj hnew => ?_) d (by omega)
      rw [hother j (by omega) (.inr (by omega)), hno.kept j hj (by omega)]
    have hfreeze' : freeze other d (arena.length + 1) = some no := by
      refine hno.freeze_eq other (fun j hj hnew => ?_) d (by omega)
      exact hother j hj (.inr (by omega))
    simp only [freeze, hself, hfreeze, hfreeze']

/-! ## All turns -/

/-- A tree that grows is constructed. -/
theorem exists_run_of_grow (h : l.grow depth k points = .ok (tree, next))
    (hpending : arena[i]? = some (.pending points)) (stack : List Nat) :
    ∃ turns < 2 ^ depth, ∃ arena', Built arena i arena' tree depth ∧
      ∀ more, run l (turns + more) ⟨k, arena, i :: stack⟩ = run l more ⟨next, arena', stack⟩ := by
  induction depth generalizing k points tree next arena i stack with
  | zero => cases h
  | succ depth ih =>
    have hi : i < arena.length := (List.getElem?_eq_some_iff.1 hpending).1
    have hpow : 2 ^ (depth + 1) = 2 ^ depth + 2 ^ depth := by rw [Nat.pow_succ, Nat.mul_two]
    have hpos : 0 < 2 ^ depth := Nat.two_pow_pos depth
    rw [TreeLearner.grow] at h
    split at h
    · next inside next hleaf =>
      cases h
      refine ⟨1, by omega, _, built_leaf hi inside depth, fun more => ?_⟩
      rw [Nat.add_comm, run_leaf hpending hleaf]
    · next hleaf =>
      split at h
      · cases h
      · next s hsplit =>
        split at h
        · cases h
        · next yes k₁ hyes =>
          split at h
          · cases h
          · next no k₂ hno =>
            cases h
            obtain ⟨turns, hturns, arena₁, hbuilt, hrun⟩ := ih hyes (divide_yes hi) _
            obtain ⟨turns', hturns', arena₂, hbuilt', hrun'⟩ := ih hno (hbuilt.pending_no hi) _
            refine ⟨turns + turns' + 1, by omega, arena₂, built_node hi hbuilt hbuilt',
              fun more => ?_⟩
            rw [show turns + turns' + 1 + more = turns + (turns' + more) + 1 by omega,
              run_divide hpending hleaf hsplit, hrun, hrun']

/-- Where no tree grows, the construction fails for the same reason. -/
theorem exists_run_of_grow_error (h : l.grow depth k points = .error e)
    (hdepth : points.length < depth) (hpending : arena[i]? = some (.pending points))
    (stack : List Nat) : ∃ turns < 2 ^ depth,
      ∀ more, run l (turns + more) ⟨k, arena, i :: stack⟩ = some (.error e) := by
  induction depth generalizing k points arena i stack with
  | zero => omega
  | succ depth ih =>
    have hi : i < arena.length := (List.getElem?_eq_some_iff.1 hpending).1
    have hpow : 2 ^ (depth + 1) = 2 ^ depth + 2 ^ depth := by rw [Nat.pow_succ, Nat.mul_two]
    have hpos : 0 < 2 ^ depth := Nat.two_pow_pos depth
    rw [TreeLearner.grow] at h
    split at h
    · cases h
    · next hleaf =>
      split at h
      · next hsplit =>
        cases h
        refine ⟨1, by omega, fun more => ?_⟩
        rw [Nat.add_comm, run_fail hpending hleaf hsplit]
      · next s hsplit =>
        have hparts := TreeLearner.parts_of_split hsplit
        have hyes_lt := hparts.length_yes
        have hno_lt := hparts.length_no
        split at h
        · next hyes =>
          cases h
          obtain ⟨turns, hturns, hrun⟩ := ih hyes (by omega) (divide_yes hi) _
          refine ⟨turns + 1, by omega, fun more => ?_⟩
          rw [Nat.add_right_comm, run_divide hpending hleaf hsplit, hrun]
        · next yes k₁ hyes =>
          split at h
          · next hno =>
            cases h
            obtain ⟨turns, hturns, arena₁, hbuilt, hrun⟩ :=
              exists_run_of_grow hyes (divide_yes hi) _
            obtain ⟨turns', hturns', hrun'⟩ := ih hno (by omega) (hbuilt.pending_no hi) _
            refine ⟨turns + turns' + 1, by omega, fun more => ?_⟩
            rw [show turns + turns' + 1 + more = turns + (turns' + more) + 1 by omega,
              run_divide hpending hleaf hsplit, hrun, hrun']
          · cases h

end Construction

namespace TreeLearner

variable {l : TreeLearner} {k : Knowledge} {turns : Nat}

/-- With enough turns, the construction ends as the growth of a tree does. -/
theorem construct_eq_learn (hturns : 2 ^ (k.datapoints.length + 1) ≤ turns) :
    l.construct turns k = some (l.learn k) := by
  have hpending : (Construction.start k).arena[0]? = some (.pending k.datapoints) := rfl
  cases hgrow : l.grow (k.datapoints.length + 1) k k.datapoints with
  | error e =>
    obtain ⟨used, hused, hrun⟩ :=
      Construction.exists_run_of_grow_error hgrow (Nat.lt_succ_self _) hpending []
    obtain ⟨more, rfl⟩ := Nat.exists_eq_add_of_le (Nat.le_trans (Nat.le_of_lt hused) hturns)
    have hlearn : l.learn k = .error e := by rw [learn, hgrow]; rfl
    simp only [construct, Construction.start, hlearn] at hrun ⊢
    rw [hrun]
  | ok r =>
    obtain ⟨tree, next⟩ := r
    obtain ⟨used, hused, arena, hbuilt, hrun⟩ :=
      Construction.exists_run_of_grow hgrow hpending []
    obtain ⟨more, rfl⟩ : ∃ n, turns = used + (n + 1) := ⟨turns - used - 1, by omega⟩
    have hlearn : l.learn k = .ok tree := by rw [learn, hgrow]; rfl
    have hdepth : k.datapoints.length + 1 ≤ used + (more + 1) :=
      Nat.le_trans (Nat.le_of_lt Nat.lt_two_pow_self) hturns
    have hfreeze := hbuilt.freeze_eq arena (fun _ _ _ => rfl) _ hdepth
    simp only [construct, Construction.start, hlearn] at hrun ⊢
    rw [hrun, Construction.run]
    simp only [hfreeze, Option.map_some]

/-- Whatever is known, the construction of a tree ends after a bounded number of turns and leaves no
node out. If what is known is free of contradiction and every datapoint gives exactly the declared
variables values of their sorts, a learner that uses values gets a tree, whatever other predicates
it has. -/
theorem learn_ends (l : TreeLearner) (k : Knowledge) :
    (∀ turns, 2 ^ (k.datapoints.length + 1) ≤ turns → l.construct turns k = some (l.learn k)) ∧
      (l.useValues = true → k.Reachable → (∀ p ∈ k.datapoints, p.Total l.decls) →
        ∃ tree, l.learn k = .ok tree) :=
  ⟨fun _ => construct_eq_learn, exists_learn⟩

end TreeLearner

def mixedStates : Except Contradiction Nat × Knowledge :=
  Knowledge.insertAll {} [⟨[], some ⟨0, .ofList [("x", .int 1), ("b", .bool false)]⟩, .clause 0⟩,
    ⟨[⟨0, .ofList [("x", .int 2), ("b", .bool true)]⟩],
      some ⟨1, .ofList [("x", .int 3), ("b", .bool true)]⟩, .clause 1⟩,
    ⟨[⟨0, .ofList [("x", .int 5), ("b", .bool false)]⟩], none, .clause 2⟩]

/-- A further predicate that has a truth value at none of them does no harm. -/
theorem mixedStates_learned :
    ∃ tree, TreeLearner.construct
      { decls := [⟨"x", .int⟩, ⟨"b", .bool⟩], atoms := [.rel .leq (.var "x") (.var "y")] } 32
      mixedStates.2 = some (.ok tree) := by
  have hadded : mixedStates.1.toOption = some 3 := by decide +kernel
  have hk : mixedStates.2.Reachable :=
    (Knowledge.Reachable.empty.insertAll (Prod.ext (toOption_eq_some_iff.1 hadded) rfl)).1
  obtain ⟨hends, htree⟩ := TreeLearner.learn_ends
    { decls := [⟨"x", .int⟩, ⟨"b", .bool⟩], atoms := [.rel .leq (.var "x") (.var "y")] }
    mixedStates.2
  obtain ⟨tree, htree⟩ := htree rfl hk (by decide +kernel)
  exact ⟨tree, by rw [hends 32 (by decide +kernel), htree]⟩

end LoopInvariant
