import LoopInvariant.Inference
import LoopInvariant.Proofs.Counterexamples
import LoopInvariant.Proofs.Dialogue
import LoopInvariant.Proofs.SessionCommands
/-!
# Values of models

Which variables get a value when a session is asked for some. A bounded session gives all of them
one, by default if need be. A session with a solver process takes what the solver's answer lists and
does not ask whether that is all, so a variable that the answer leaves out has no value. A teacher
makes a datapoint of it nevertheless, which then stands for more states than the solver spoke of.
-/

namespace LoopInvariant

/-! ## Bounded sessions -/

namespace BoundedSession

theorem get?_of_complete {s : BoundedSession} {m v r : Valuation} {xs : List String}
    (h : s.complete m xs v = .ok r) {x : String} {a : Value} (hx : r.get? x = some a) :
    x ∈ xs ∨ v.get? x = some a := by
  induction xs generalizing v with
  | nil =>
    cases h
    exact .inr hx
  | cons y xs ih =>
    have hnext : ∃ b, s.complete m xs (v.insert y b) = .ok r := by
      rw [complete] at h
      split at h
      · exact ⟨_, h⟩
      · split at h
        · exact ⟨_, h⟩
        · cases h
    obtain ⟨b, hb⟩ := hnext
    rcases ih hb with hmem | hget
    · exact .inl (List.mem_cons_of_mem _ hmem)
    · by_cases heq : x = y
      · exact .inl (heq ▸ List.mem_cons_self)
      · rw [SortedMap.get?_insert_of_ne _ _ heq] at hget
        exact .inr hget

/-- A bounded session gives a value to the requested variables and to no others. -/
theorem assigns_model_iff {s s' : BoundedSession} {xs : List String} {m : Valuation}
    (h : (Session.model xs : SessionM BoundedSession _) s = (.ok m, s')) (x : String) :
    (∃ a, m.get? x = some a) ↔ x ∈ xs := by
  cases hmodel : s.model with
  | none =>
    simp only [Session.model, hmodel] at h
    cases h
  | some found =>
    rw [model_of_some hmodel] at h
    have hcomplete := congrArg Prod.fst h
    constructor
    · rintro ⟨a, ha⟩
      refine (get?_of_complete hcomplete ha).resolve_right fun hnone => ?_
      cases hnone
    · exact fun hx => ⟨_, complete_eq_ok hcomplete (.inl hx)⟩

end BoundedSession

/-! ## Sessions with a process -/

namespace PipedSession

open Solver

/-- An answer has a pair for a variable. -/
def Lists (answer : Sexp) (x : String) : Prop :=
  ∃ value, Sexp.list [.sym x, value] ∈ answer.list?.getD []

variable {sig : Signature} {answer : Sexp} {m : Valuation}

theorem name_of_readValue {pair : Sexp} {x : String} {a : Value}
    (h : readValue sig pair = .ok (x, a)) : ∃ value, pair = .list [.sym x, value] := by
  unfold readValue at h
  split at h
  · next y value =>
    split at h
    · cases h
    · split at h
      all_goals
        dsimp only at h
        split at h
        · cases h
          exact ⟨value, rfl⟩
        · cases h
  · cases h

theorem assigns_readValues_iff (h : readValues sig answer = .ok m) (x : String) :
    (∃ a, m.get? x = some a) ↔ Lists answer x := by
  rw [readValues] at h
  split at h
  · next pairs hpairs =>
    cases h
    obtain ⟨hmem, hall⟩ := mem_of_mapM_eq_ok hpairs
    constructor
    · rintro ⟨a, ha⟩
      obtain ⟨pair, hpair, hread⟩ := (hmem (x, a)).1 (SortedMap.mem_of_get?_ofList ha)
      obtain ⟨value, rfl⟩ := name_of_readValue hread
      exact ⟨value, hpair⟩
    · rintro ⟨value, hvalue⟩
      obtain ⟨⟨y, a⟩, hread⟩ := hall _ hvalue
      obtain ⟨_, hpair⟩ := name_of_readValue hread
      cases hpair
      exact SortedMap.exists_get?_ofList ((hmem (x, a)).2 ⟨_, hvalue, hread⟩)
  · cases h

theorem pipe_of_perform {α : Type} {a : Action α} {s s' : PipedSession} {v : α}
    (h : perform a s = (.ok v, s')) : a s.pipe = (.ok v, s'.pipe) := by
  rw [perform_run] at h
  obtain ⟨hresult, rfl⟩ := Prod.mk.inj h
  cases hrun : (a s.pipe).1 with
  | error e =>
    rw [hrun] at hresult
    cases hresult
  | ok w =>
    rw [hrun] at hresult
    cases hresult
    exact Prod.ext hrun rfl

theorem model_eq_ok {xs : List String} {s s' : PipedSession}
    (h : (Session.model xs : SessionM PipedSession _) s = (.ok m, s')) :
    ∃ answer, Pipe.values xs s.pipe = (.ok answer, s'.pipe) ∧
      readValues s.signature answer = .ok m := by
  rcases model_cases xs s with ⟨e, hrun⟩ | ⟨-, hrun⟩
  · rw [h] at hrun
    cases hrun
  · obtain ⟨answer, u, hperform, hread⟩ := Stateful.exists_of_bind_eq (hrun.symm.trans h)
    obtain ⟨hvalues, rfl⟩ : readValues s.signature answer = .ok m ∧ u = s' := Prod.mk.inj hread
    exact ⟨answer, pipe_of_perform hperform, hvalues⟩

end PipedSession

/-! ## Questions of a teacher -/

namespace Session

open Solver (SatAnswer)

variable {σ : Type} [Session σ]

/-- Put a question in a scope of its own, up to the answer whether there is a model. -/
def question (t : Term) (vars : List String) : SessionM σ SatAnswer := do
  push
  declare vars
  assert t
  checkSat

theorem exists_of_inScope {α : Type} {a : SessionM σ α} {s : σ} {v : α}
    (h : (inScope a s).1 = .ok v) : ∃ u, push s = (.ok (), u) ∧ (a u).1 = .ok v := by
  rcases hpush : (push : SessionM σ Unit) s with ⟨e | ⟨⟩, u⟩
  · rw [inScope_of_error hpush] at h
    cases h
  · rw [inScope_of_ok hpush] at h
    obtain ⟨w, hw, h⟩ := bind_eq_ok.1 h
    obtain ⟨_, -, rfl⟩ := map_eq_ok.1 h
    exact ⟨u, rfl, hw⟩

/-- A model is asked for right after the question it answers. -/
theorem model_of_modelOf {t : Term} {vars : List String} {s : σ} {m : Valuation}
    (h : (modelOf t vars s).1 = .ok (some m)) :
    (question t vars s).1 = .ok .sat ∧ (model vars (question t vars s).2).1 = .ok m := by
  obtain ⟨u, hpush, h⟩ := exists_of_inScope h
  obtain ⟨⟨⟩, hdeclare, h⟩ := Stateful.exists_of_bind h
  obtain ⟨⟨⟩, hassert, h⟩ := Stateful.exists_of_bind h
  obtain ⟨answer, hcheck, h⟩ := Stateful.exists_of_bind h
  have hquestion : question t vars s =
      (.ok answer, (checkSat (assert t (declare vars u).2).2).2) := by
    rw [question, Stateful.bind_of_ok hpush, Stateful.bind_of_ok (Prod.ext hdeclare rfl),
      Stateful.bind_of_ok (Prod.ext hassert rfl)]
    exact Prod.ext hcheck rfl
  rw [hquestion]
  cases answer with
  | sat =>
    dsimp only at h
    rw [Stateful.map_run] at h
    obtain ⟨w, hw, heq⟩ := map_eq_ok.1 h
    cases heq
    exact ⟨rfl, hw⟩
  | unsat => cases h
  | unknown reason => cases h

end Session

namespace Teacher

variable {σ : Type} [Session σ] {names : List String} {cs : Candidates}

theorem gather_cons_snd {c : Clause} {i : Nat} {rest : List (Clause × Nat)} {s : σ}
    {r : Option Valuation}
    (h : (Session.modelOf (c.violation cs) (c.observed names) s).1 = .ok r) :
    ((gather names cs ((c, i) :: rest) : SessionM σ _) s).2 =
      ((gather names cs rest : SessionM σ _)
        (Session.modelOf (c.violation cs) (c.observed names) s).2).2 := by
  rw [gather, Stateful.bind_of_ok (Prod.ext h rfl), bind_pure_comp, Stateful.map_run]

/-- Each constraint that is gathered comes from a model of its clause's violation, in the session as
the clauses before have left it. -/
theorem exists_modelOf_of_gather {numbered : List (Clause × Nat)} {s : σ}
    {found : List Constraint}
    (hfound : ((gather names cs numbered : SessionM σ _) s).1 = .ok found) :
    ∀ k ∈ found, ∃ before c i after m, numbered = before ++ (c, i) :: after ∧
      (Session.modelOf (c.violation cs) (c.observed names)
        ((gather names cs before : SessionM σ _) s).2).1 = .ok (some m) ∧
      k = c.counterexample i names m := by
  induction numbered generalizing s found with
  | nil =>
    cases hfound
    simp
  | cons x rest ih =>
    obtain ⟨c, i⟩ := x
    obtain ⟨model, hmodel, hfound⟩ := Stateful.exists_of_bind hfound
    obtain ⟨more, hmore, hfound⟩ := Stateful.exists_of_bind hfound
    cases hfound
    intro k hk
    rcases List.mem_append.1 hk with hk | hk
    · obtain ⟨m, rfl, rfl⟩ := Option.map_eq_some_iff.1 (Option.mem_toList.1 hk)
      exact ⟨[], c, i, rest, m, rfl, hmodel, rfl⟩
    · obtain ⟨before, c', i', after, m, rfl, hmodel', rfl⟩ := ih hmore k hk
      refine ⟨(c, i) :: before, c', i', after, m, rfl, ?_, rfl⟩
      rw [gather_cons_snd hmodel]
      exact hmodel'

/-- The session in a check of candidates when the question of a clause was just answered. -/
def answered (system : ClauseSystem) (cs : Candidates) (i : Nat) (c : Clause) (s : σ) : σ :=
  let names := system.decls.map (·.name)
  let asked := ((gather names cs (system.clauses.zipIdx.take i) : SessionM σ _) s).2
  (Session.question (c.violation cs) (c.observed names) asked).2

/-- Each constraint that is reported is read off the model that the session gave when it had just
answered the question of the clause. -/
theorem exists_model_of_check {system : ClauseSystem} {s : σ} {found : List Constraint}
    (hcheck : ((check system cs : SessionM σ _) s).1 = .ok (some found)) :
    ∀ k ∈ found, ∃ i c m, system.clauses[i]? = some c ∧
      ((Session.model (c.observed (system.decls.map (·.name))) : SessionM σ _)
        (answered system cs i c s)).1 = .ok m ∧
      k = c.counterexample i (system.decls.map (·.name)) m := by
  intro k hk
  obtain ⟨before, c, i, after, m, hsplit, hmodel, rfl⟩ :=
    exists_modelOf_of_gather (gather_of_check hcheck).2 k hk
  have hget : system.clauses.zipIdx[before.length]? = some (c, i) := by
    rw [hsplit, List.getElem?_append_right (Nat.le_refl _), Nat.sub_self]
    rfl
  obtain ⟨hclause, hi⟩ : system.clauses[before.length]? = some c ∧ before.length = i := by
    simpa using hget
  have htake : system.clauses.zipIdx.take i = before := by
    rw [hsplit, ← hi, List.take_left]
  refine ⟨i, c, m, hi ▸ hclause, ?_, rfl⟩
  rw [answered, htake]
  exact (Session.model_of_modelOf hmodel).2

end Teacher

namespace Clause

/-- A counterexample assigns the declared variables in all of its datapoints if the model assigns
what was observed. -/
theorem assigns_counterexample_iff (c : Clause) (i : Nat) (names : List String) (m : Valuation) :
    (∀ p ∈ (c.counterexample i names m).datapoints, ∀ x ∈ names,
      ∃ a, p.valuation.get? x = some a) ↔ ∀ x ∈ c.observed names, ∃ a, m.get? x = some a := by
  constructor
  · intro h x hx
    rcases mem_observed_iff.1 hx with ⟨l, hl, y, hy, rfl⟩ | ⟨l, hl, y, hy, rfl⟩
    · have hmem : ⟨l, project names .initial m⟩ ∈ (c.counterexample i names m).datapoints := by
        simp [counterexample, Constraint.datapoints, hl, Endpoint.head?]
      simpa only [get?_project hy] using h _ hmem y hy
    · have hmem : ⟨l, project names c.indexing m⟩ ∈ (c.counterexample i names m).datapoints := by
        simp [counterexample, Constraint.datapoints, hl, Endpoint.head?]
      simpa only [get?_project hy] using h _ hmem y hy
  · intro h p hp x hx
    rcases List.mem_append.1 hp with hp | hp
    · obtain ⟨l, hl, rfl⟩ := mem_sources_counterexample hp
      rw [get?_project hx]
      exact h _ (mem_observed_of_pre hl hx)
    · obtain ⟨l, hl, rfl⟩ := target_counterexample (Option.mem_toList.1 hp)
      rw [get?_project hx]
      exact h _ (mem_observed_of_post hl hx)

end Clause

/-! ## Who gets a value -/

open Solver PipedSession in
/-- When a bounded session gives values, the requested variables get one and no others do. When a
session with a solver process gives values, exactly those variables get one that the solver's answer
lists. Accordingly, the datapoints that a teacher reports from a bounded session assign all declared
variables. From a session with a solver process they do so if and only if the solver's answer lists
everything that was asked for. -/
theorem values_given_iff_listed (b : BoundedSession) (p : PipedSession) (xs : List String)
    (system : ClauseSystem) (cs : Candidates) :
    (∀ m, (Session.model xs b).1 = .ok m → ∀ x, (∃ a, m.get? x = some a) ↔ x ∈ xs) ∧
    (∀ m, (Session.model xs p).1 = .ok m → ∃ answer, (Pipe.values xs p.pipe).1 = .ok answer ∧
      ∀ x, (∃ a, m.get? x = some a) ↔ Lists answer x) ∧
    (∀ found, (Teacher.check system cs b).1 = .ok (some found) →
      ∀ k ∈ found, ∀ point ∈ k.datapoints, ∀ d ∈ system.decls,
        ∃ a, point.valuation.get? d.name = some a) ∧
    ∀ found, (Teacher.check system cs p).1 = .ok (some found) →
      ∀ k ∈ found, ∃ i c answer, k.origin = .clause i ∧ system.clauses[i]? = some c ∧
        let asked := c.observed (system.decls.map (·.name))
        (Pipe.values asked (Teacher.answered system cs i c p).pipe).1 = .ok answer ∧
        ((∀ point ∈ k.datapoints, ∀ d ∈ system.decls,
          ∃ a, point.valuation.get? d.name = some a) ↔ ∀ x ∈ asked, Lists answer x) := by
  refine ⟨fun m hm => BoundedSession.assigns_model_iff (Prod.ext hm rfl), fun m hm => ?_,
    fun found hcheck k hk => ?_, fun found hcheck k hk => ?_⟩
  · obtain ⟨answer, hanswer, hread⟩ := PipedSession.model_eq_ok (Prod.ext hm rfl)
    exact ⟨answer, congrArg Prod.fst hanswer, assigns_readValues_iff hread⟩
  · obtain ⟨i, c, m, -, hmodel, rfl⟩ := Teacher.exists_model_of_check hcheck k hk
    have hassigns := fun x => (BoundedSession.assigns_model_iff (Prod.ext hmodel rfl) x).2
    have htotal := (c.assigns_counterexample_iff i _ m).2 hassigns
    exact fun point hpoint d hd => htotal point hpoint d.name (List.mem_map_of_mem hd)
  · obtain ⟨i, c, m, hclause, hmodel, rfl⟩ := Teacher.exists_model_of_check hcheck k hk
    obtain ⟨answer, hanswer, hread⟩ := PipedSession.model_eq_ok (Prod.ext hmodel rfl)
    refine ⟨i, c, answer, rfl, hclause, congrArg Prod.fst hanswer, ?_⟩
    have hiff := c.assigns_counterexample_iff i (system.decls.map (·.name)) m
    simp only [assigns_readValues_iff hread, List.forall_mem_map] at hiff
    exact hiff

def idleLoop : Automaton where
  decls := [⟨"x", .int⟩]
  locations := ["start", "loop", "error"]
  entry := 0
  error := 2
  edges := [⟨0, 1, [.assign "x" (.int 0)]⟩, ⟨1, 1, []⟩,
    ⟨1, 2, [.assume (.rel .lt (.var "x") (.int 0))]⟩]

def answeredBy (answers : List String) : Except SessionError PipedSession :=
  let solver : Solver.Peer := { script := answers.map .say }
  PipedSession.launch (fun _ => some solver) { program := "z3" } none
    (.ofDecls idleLoop.decls)

def request : SessionM PipedSession Valuation := do
  Session.declare ["x@0"]
  let _ ← Session.checkSat
  Session.model ["x@0"]

/-- A bounded session gives a value also to a variable that its model leaves open, a full answer of
a solver lists what was asked for, and from both a teacher reports the same datapoint. -/
theorem full_answer_listed :
    let b : BoundedSession := { signature := .ofDecls idleLoop.decls, radius := 1 }
    let found : BoundedSession := { b with model := some (SortedMap.ofList [("x@0", .int (-1))]) }
    let k : Constraint := ⟨[⟨1, SortedMap.ofList [("x", .int (-1))]⟩], none, .clause 2⟩
    ∃ s p p' m m', ClauseSystem.ofAutomaton idleLoop = .ok s ∧
      ((Session.model ["x@0", "x@1"] : SessionM BoundedSession _) found).1 = .ok m ∧
      (∃ a, m.get? "x@1" = some a) ∧
      answeredBy ["sat", "((x@0 (- 1)))"] = .ok p ∧
      (let q := (Session.question (.lit true) ["x@0"] p).2
       (Session.model ["x@0"] q).1 = .ok m' ∧
        ∃ answer, (Solver.Pipe.values ["x@0"] q.pipe).1 = .ok answer ∧
          PipedSession.Lists answer "x@0") ∧
      (Teacher.check s (.const [[]]) b).1 = .ok (some [k]) ∧
      (∀ p ∈ k.datapoints, ∃ a, p.valuation.get? "x" = some a) ∧
      answeredBy ["unsat", "unsat", "sat", "((x@0 (- 1)))"] = .ok p' ∧
      (Teacher.check s (.const [[]]) p').1 = .ok (some [k]) ∧
      ∃ c answer, s.clauses[2]? = some c ∧
        (Solver.Pipe.values (c.observed ["x"]) (Teacher.answered s (.const [[]]) 2 c p').pipe).1 =
          .ok answer ∧ ∀ x ∈ c.observed ["x"], PipedSession.Lists answer x := by
  intro b found k
  let m : Valuation := SortedMap.ofList [("x@0", .int (-1)), ("x@1", .int 0)]
  let m' : Valuation := SortedMap.ofList [("x@0", .int (-1))]
  obtain ⟨s, p', hs, hdecls, hp', hcheck, hcheck'⟩ : ∃ s p',
      ClauseSystem.ofAutomaton idleLoop = .ok s ∧ s.decls = idleLoop.decls ∧
      answeredBy ["unsat", "unsat", "sat", "((x@0 (- 1)))"] = .ok p' ∧
      (Teacher.check s (.const [[]]) b).1 = .ok (some [k]) ∧
      (Teacher.check s (.const [[]]) p').1 = .ok (some [k]) :=
    ⟨_, _, rfl, rfl, rfl, by decide +kernel, by decide +kernel⟩
  obtain ⟨p, hp, hmodel'⟩ : ∃ p, answeredBy ["sat", "((x@0 (- 1)))"] = .ok p ∧
      (Session.model ["x@0"] (Session.question (.lit true) ["x@0"] p).2).1 = .ok m' :=
    ⟨_, rfl, by decide +kernel⟩
  have hmodel : ((Session.model ["x@0", "x@1"] : SessionM BoundedSession _) found).1 = .ok m := by
    decide +kernel
  obtain ⟨hgiven, -, -, hreported'⟩ :=
    values_given_iff_listed found p' ["x@0", "x@1"] s (.const [[]])
  obtain ⟨-, hgiven', hreported, -⟩ := values_given_iff_listed b
    (Session.question (.lit true) ["x@0"] p).2 ["x@0"] s (.const [[]])
  have hassigned := (hgiven _ hmodel "x@1").2 (by decide)
  obtain ⟨answer, hanswer, hlists⟩ := hgiven' _ hmodel'
  have htotal := hreported _ hcheck k List.mem_cons_self
  obtain ⟨i, c, answer', horigin, hclause, hanswer', hlists'⟩ :=
    hreported' _ hcheck' k List.mem_cons_self
  cases horigin
  simp only [hdecls] at htotal hanswer' hlists'
  exact ⟨s, p, p', m, m', hs, hmodel, hassigned, hp,
    ⟨hmodel', answer, hanswer, (hlists "x@0").1 ⟨_, rfl⟩⟩, hcheck,
    fun p hp => htotal p hp _ List.mem_cons_self, hp', hcheck', c, answer', hclause, hanswer',
    hlists'.1 htotal⟩

theorem idleLoop_safe : ¬idleLoop.ErrorReachable := by
  have hinvariant : ∀ {s₀ trace l s}, idleLoop.Run s₀ trace l s →
      l = 0 ∨ l = 1 ∧ s "x" = .int 0 := by
    intro s₀ trace l s hrun
    induction hrun with
    | start => exact .inl rfl
    | @edge trace trace' l s s' e _ hedge hsource hstmts ih =>
      have hcases : e = ⟨0, 1, [.assign "x" (.int 0)]⟩ ∨ e = ⟨1, 1, []⟩ ∨
          e = ⟨1, 2, [.assume (.rel .lt (.var "x") (.int 0))]⟩ := by
        simpa [idleLoop] using hedge
      rcases hcases with rfl | rfl | rfl
      · cases hstmts with
        | cons hstep hrest =>
          cases hrest
          cases hstep with
          | assign hvalue =>
            cases hvalue
            exact .inr ⟨rfl, Function.update_self ..⟩
      · cases hstmts
        exact .inr ⟨rfl, (ih.resolve_left (by simp [← hsource])).2⟩
      · cases hstmts with
        | cons hstep hrest =>
          cases hrest
          cases hstep with
          | assume htrue =>
            -- the guard is false where the variable is zero
            have hzero := (ih.resolve_left (by simp [← hsource])).2
            simp only [Term.evalBool, Term.eval, State.env, hzero] at htrue
            exact absurd htrue (by decide)
  rintro ⟨s₀, trace, s, hrun⟩
  rcases hinvariant hrun with h | ⟨h, -⟩
  · cases h
  · cases h

/-- A solver answers every question rightly, but leaves out values. A request for the variable's
value succeeds without one, a teacher reports a datapoint that stands for all states, and inference
refutes a program that cannot fail. -/
theorem omitted_value_accepted :
    ∃ s p p' p'' m e, ClauseSystem.ofAutomaton idleLoop = .ok s ∧
      answeredBy ["sat", "()"] = .ok p ∧ (request p).1 = .ok m ∧ m.get? "x@0" = none ∧
      answeredBy ["unsat", "unsat", "sat", "()"] = .ok p' ∧
      (Teacher.check s (.const [[]]) p').1 =
        .ok (some [⟨[⟨1, SortedMap.ofList []⟩], none, .clause 2⟩]) ∧
      answeredBy ["unsat", "unsat", "sat", "((x@0 (- 1)))", "sat", "()", "unsat", "unsat"] =
        .ok p'' ∧
      (infer s {} (.ok p'')).1 = .ok (.refuted e) ∧ ¬idleLoop.ErrorReachable := by
  let reached : Constraint := ⟨[], some ⟨1, SortedMap.ofList []⟩, .clause 0⟩
  let failing : Constraint := ⟨[⟨1, SortedMap.ofList [("x", .int (-1))]⟩], none, .clause 2⟩
  exact ⟨_, _, _, _, SortedMap.ofList [], ⟨[reached, failing]⟩, rfl, rfl, by decide +kernel, rfl,
    rfl, by decide +kernel, rfl, by decide +kernel, idleLoop_safe⟩

end LoopInvariant
