import LoopInvariant.Proofs.BodyNames
import LoopInvariant.Proofs.CommandStream
import LoopInvariant.Proofs.Completion
import LoopInvariant.Proofs.SexpText
/-!
# The text of a clause's question

To check a clause, a session declares its versioned variables and asserts its violation. The names
come from the program, and all that a checked description says of them is that they contain no `@`.
What is written can be read back exactly if each name is empty or legible: a plain symbol, or one
that is written between bars and contains none.
-/

namespace LoopInvariant

/-! ## Symbols of a translated term -/

namespace Sexp

variable {P : String → Prop}

theorem over_sym_iff {s : String} : (sym s).Over P ↔ P s := by
  constructor
  · intro h
    cases h with
    | sym hs => exact hs
  · exact .sym

theorem over_app_iff {f : String} {xs : List Sexp} :
    (app f xs).Over P ↔ P f ∧ ∀ x ∈ xs, x.Over P := by
  constructor
  · intro h
    cases h with
    | list hxs =>
      obtain ⟨hf, hxs⟩ := List.forall_mem_cons.1 hxs
      exact ⟨over_sym_iff.1 hf, hxs⟩
  · intro h
    exact .list (List.forall_mem_cons.2 ⟨.sym h.1, h.2⟩)

end Sexp

namespace Term

/-- The symbols of the theories. -/
def theorySymbols : List String :=
  ["true", "false", "not", "and", "or", "=>", "=", "distinct", "ite", "-", "+", "*", "<", "<=",
    ">=", ">"]

variable {P : String → Prop}

theorem over_nary_iff (hP : ∀ f ∈ theorySymbols, P f) (op : Junction) (ts : List Term) :
    (nary op ts).toSexp.Over P ↔ ∀ x ∈ toSexpList ts, x.Over P := by
  cases ts with
  | nil => cases op <;> simp (disch := decide) [toSexp, toSexpList, Sexp.over_sym_iff, hP]
  | cons t ts =>
    cases ts with
    | nil => simp [toSexp, toSexpList]
    | cons u ts => cases op <;> simp (disch := decide) [toSexp, toSexpList, Sexp.over_app_iff, hP]

mutual

/-- Apart from the symbols of the theories, a translated term is over its variables. -/
theorem over_toSexp_iff (hP : ∀ f ∈ theorySymbols, P f) :
    ∀ t : Term, t.toSexp.Over P ↔ ∀ x ∈ t.occurrences, P x
  | lit b => by
    cases b <;> simp (disch := decide) [toSexp, occurrences, Sexp.over_sym_iff, hP]
  | int i => by
    have hminus : P "-" := hP _ (by decide)
    simp [toSexp, occurrences, Sexp.over_ofInt hminus]
  | var x => by simp [toSexp, occurrences, Sexp.over_sym_iff]
  | not t | neg t => by
    simp (disch := decide) [toSexp, occurrences, Sexp.over_app_iff, hP, over_toSexp_iff hP t]
  | bin op l r | arith op l r | rel op l r => by
    cases op <;> simp (disch := decide) [toSexp, occurrences, Sexp.over_app_iff, hP,
      over_toSexp_iff hP l, over_toSexp_iff hP r, or_imp, forall_and]
  | nary op ts => by
    rw [over_nary_iff hP, occurrences]
    exact over_toSexpList_iff hP ts
  | ite c t e => by
    simp (disch := decide) [toSexp, occurrences, Sexp.over_app_iff, hP, over_toSexp_iff hP c,
      over_toSexp_iff hP t, over_toSexp_iff hP e, or_imp, forall_and]

theorem over_toSexpList_iff (hP : ∀ f ∈ theorySymbols, P f) :
    ∀ ts : List Term, (∀ x ∈ toSexpList ts, x.Over P) ↔ ∀ x ∈ occurrencesList ts, P x
  | [] => by simp [toSexpList, occurrencesList]
  | t :: ts => by
    rw [toSexpList, occurrencesList, List.forall_mem_cons, List.forall_mem_append,
      over_toSexp_iff hP t, over_toSexpList_iff hP ts]

end

end Term

/-! ## Versioned symbols -/

namespace Sexp

/-- What a version adds to a name goes on any symbol and needs no bars. -/
theorem isSymbolChar_of_version {k : Nat} {c : Char} (hc : c ∈ '@' :: Decimal.write k) :
    isSymbolChar c = true ∧ c ∉ [' ', '"', '\'', '(', ')', '|'] := by
  rcases List.mem_cons.1 hc with rfl | hc
  · decide
  · have hdigit : c.isDigit = true := Nat.isDigit_of_mem_toDigits (by decide) (by decide) hc
    refine ⟨by rw [isSymbolChar, hdigit, Bool.or_true, Bool.true_or], ?_⟩
    exact not_mem_of_all_not (by decide) hdigit

theorem isPlain_versioned (x : String) (k : Nat) :
    isPlain (versioned x k) = true ↔ x = "" ∨ isPlain x = true := by
  have hversion : ('@' :: Decimal.write k).all isSymbolChar = true :=
    List.all_eq_true.2 fun c hc => (isSymbolChar_of_version hc).1
  cases hx : x.toList with
  | nil =>
    have hempty : x = "" := String.toList_eq_nil_iff.1 hx
    have htext : (versioned x k).toList = '@' :: Decimal.write k := by
      rw [toList_versioned, hx, List.nil_append]
    rw [List.all_cons, Bool.and_eq_true] at hversion
    rw [isPlain_of_toList htext, Bool.and_eq_true]
    exact iff_of_true ⟨by decide, hversion.2⟩ (.inl hempty)
  | cons c cs =>
    have hne : x ≠ "" := by
      rintro rfl
      cases hx
    have htext : (versioned x k).toList = c :: (cs ++ '@' :: Decimal.write k) := by
      rw [toList_versioned, hx, List.cons_append]
    rw [isPlain_of_toList htext, isPlain_of_toList hx, List.all_append, hversion, Bool.and_true,
      or_iff_right hne]

theorem legible_versioned_iff {x : String} {k : Nat} :
    Legible (versioned x k) ↔ x = "" ∨ Legible x := by
  have hbars : needsBars (versioned x k) = needsBars x := by
    rw [needsBars, needsBars, toList_versioned, List.any_append, Bool.or_eq_left_iff_imp]
    intro hany
    obtain ⟨c, hc, hspecial⟩ := List.any_eq_true.1 hany
    exact absurd (List.mem_append_left ['|'] (of_decide_eq_true hspecial))
      (isSymbolChar_of_version hc).2
  have hbar : '|' ∈ (versioned x k).toList ↔ '|' ∈ x.toList := by
    rw [toList_versioned, List.mem_append]
    refine or_iff_left fun hmem => (isSymbolChar_of_version hmem).2 ?_
    decide
  rw [Legible, Legible, isPlain_versioned, hbars, hbar, or_assoc]

theorem visible_versioned (x : String) (k : Nat) : Visible (versioned x k) := by
  refine ⟨'@', ?_, by decide⟩
  rw [toList_versioned]
  exact List.mem_append_right _ List.mem_cons_self

end Sexp

/-! ## Variables of a violation -/

theorem Term.occurrences_complement (t : Term) : t.complement.occurrences = t.occurrences := by
  cases t with
  | bin op l r => cases op <;> rfl
  | lit | int | var | not | neg | arith | rel | nary | ite => rfl

namespace Clause

variable {a : Automaton} {s : ClauseSystem} {c : Clause} {cs : Candidates}

theorem mem_vars_violation {x : String} (h : x ∈ (c.violation cs).vars) :
    x ∈ c.body.occurrences ∨ ∃ l, ∃ y ∈ (cs.formula l).vars, ∃ k, x = versioned y k := by
  have hinv : ∀ (ix : Indexing) (l : Loc), x ∈ (ix.instantiate (cs.formula l)).occurrences →
      ∃ l, ∃ y ∈ (cs.formula l).vars, ∃ k, x = versioned y k :=
    fun ix l hx => by
      obtain ⟨y, hy, hname⟩ := Indexing.mem_occurrences_instantiate hx
      exact ⟨l, y, hy, ix.get y, hname⟩
  have hafter : ∀ l, x ∈ (c.indexing.instantiate (cs.formula l)).complement.occurrences →
      ∃ l, ∃ y ∈ (cs.formula l).vars, ∃ k, x = versioned y k := by
    intro l hx
    rw [Term.occurrences_complement] at hx
    exact hinv _ l hx
  rw [Term.mem_vars_iff, violation, violationWith] at h
  split at h
  · have hparts := Term.mem_occurrences_junction h
    simp only [List.mem_cons, List.not_mem_nil, or_false, exists_eq_or_imp, exists_eq_left] at hparts
    exact hparts.imp_right (hafter _)
  · have hparts := Term.mem_occurrences_junction h
    simp only [List.mem_cons, List.not_mem_nil, or_false, exists_eq_or_imp, exists_eq_left] at hparts
    rcases hparts with hx | hx | hx
    · exact .inr (hinv _ _ hx)
    · exact .inl hx
    · exact .inr (hafter _ hx)
  · have hparts := Term.mem_occurrences_junction h
    simp only [List.mem_cons, List.not_mem_nil, or_false, exists_eq_or_imp, exists_eq_left] at hparts
    exact hparts.symm.imp_right (hinv _ _)
  · exact .inl h

/-- The versioned variables of a clause, when candidates are checked. -/
def Involves (c : Clause) (names : List String) (cs : Candidates) (x : String) : Prop :=
  x ∈ c.observed names ∨ x ∈ (c.violation cs).vars

theorem Involves.exists_name (hwf : a.WellFormed) (hs : ClauseSystem.ofAutomaton a = .ok s)
    (hc : c ∈ s.clauses) (hcs : ∀ l, ∀ x ∈ (cs.formula l).vars, x ∈ a.names) {x : String}
    (hx : c.Involves a.names cs x) : ∃ y ∈ a.names, ∃ k, x = versioned y k := by
  rcases hx with hx | hx
  · obtain ⟨y, hy, hname⟩ := mem_observed hx
    exact ⟨y, hy, hname.elim (fun heq => ⟨_, heq⟩) fun heq => ⟨_, heq⟩⟩
  · rcases mem_vars_violation hx with hx | ⟨l, y, hy, hversioned⟩
    · obtain ⟨y, hy, k, -, hversioned⟩ := mem_vars_body hwf hs hc hx
      exact ⟨y, hy, k, hversioned⟩
    · exact ⟨y, hcs l y hy, hversioned⟩

/-- A name of which some version is involved: any at a clause with a loop head, and otherwise those
in the body. -/
def Concerns (c : Clause) (x : String) : Prop :=
  c.shape ≠ .simple ∨ ∃ k, versioned x k ∈ c.body.vars

theorem concerns_iff {names : List String} {x : String} (hx : x ∈ names) :
    c.Concerns x ↔ ∃ k, c.Involves names cs (versioned x k) := by
  cases hshape : c.shape with
  | fact l | step _ l =>
    refine iff_of_true (.inl (by simp [hshape])) ⟨c.indexing.get x, .inl ?_⟩
    exact mem_observed_of_post (l := l) (by rw [post, hshape]; rfl) hx
  | query l =>
    refine iff_of_true (.inl (by simp [hshape])) ⟨Indexing.initial.get x, .inl ?_⟩
    exact mem_observed_of_pre (l := l) (by rw [pre, hshape]; rfl) hx
  | simple =>
    have hobserved : c.observed names = [] := by
      rw [observed, pre, post, hshape]
      rfl
    have hviolation : c.violation cs = c.body := by
      rw [violation, violationWith, hshape]
    simp [Concerns, Involves, hshape, hobserved, hviolation]

def NamesLegible (c : Clause) (names : List String) : Prop :=
  ∀ x ∈ names, c.Concerns x → x = "" ∨ Sexp.Legible x

theorem namesLegible_iff {names : List String}
    (hnames : ∀ x, c.Involves names cs x → ∃ y ∈ names, ∃ k, x = versioned y k) :
    c.NamesLegible names ↔ ∀ x, c.Involves names cs x → Sexp.Legible x := by
  constructor
  · intro h x hx
    obtain ⟨y, hy, k, rfl⟩ := hnames x hx
    exact Sexp.legible_versioned_iff.2 (h y hy ((concerns_iff hy).2 ⟨k, hx⟩))
  · intro h y hy hconcerns
    obtain ⟨k, hk⟩ := (concerns_iff hy).1 hconcerns
    exact Sexp.legible_versioned_iff.1 (h _ hk)

end Clause

/-! ## What a session writes -/

namespace PipedSession

open Solver
open Stateful (Emits)

variable {c : Clause} {names : List String} {cs : Candidates} {sig : Signature} {accepted : Prop}
  {p p' : PipedSession}

/-- Declare what a clause is about, and assert that candidates violate it. -/
def pose (c : Clause) (names : List String) (cs : Candidates) : SessionM PipedSession Unit := do
  Session.declare (c.observed names)
  Session.assert (c.violation cs)

/-- The commands that pose the question of a clause. -/
inductive Poses (c : Clause) (names : List String) (cs : Candidates) : Sexp → Prop where
  | declares {x : String} (hx : c.Involves names cs x) (sort : VarSort) :
      Poses c names cs (declaration x sort)
  | asserts : Poses c names cs (assertion (c.violation cs).toSexp)

theorem emits_pose (c : Clause) (names : List String) (cs : Candidates) :
    Emits sent (Poses c names cs) (fun _ => [assertion (c.violation cs).toSexp])
      (pose c names cs) := by
  refine Emits.bind ((emits_declare _).mono fun y hy => ?_) (fun _ =>
    (emits_assert _).mono fun y hy => ?_) fun _ _ => List.Sublist.refl _
  · obtain ⟨x, hx, sort, rfl⟩ := hy
    exact .declares (.inl hx) sort
  · rcases hy with ⟨x, hx, sort, rfl⟩ | rfl
    · exact .declares (.inr hx) sort
    · exact .asserts

theorem declared_of_assert (h : Tracks sig accepted p) {t : Term}
    (hrun : Session.assert t p = (.ok (), p')) :
    ∀ x ∈ t.vars, ∃ sort, declaration x sort ∈ p'.sent := by
  obtain ⟨⟨⟩, u, hdeclare, hperform⟩ := Stateful.exists_of_bind_eq hrun
  have hknown := h.declared_of_forM (congrArg Prod.fst hdeclare)
  obtain ⟨new, hnew, -⟩ := emits_perform (Pipe.emits_send (assertion t.toSexp)) u
  have hsent : p'.sent = u.sent ++ new := (congrArg (fun r => sent r.2) hperform).symm.trans hnew
  intro x hx
  obtain ⟨sort, hsort⟩ := hknown x hx
  rw [hdeclare] at hsort
  exact ⟨sort, hsent ▸ List.mem_append_left _ hsort⟩

theorem declared_of_pose (h : Tracks sig accepted p) (hrun : pose c names cs p = (.ok (), p'))
    {x : String} (hx : c.Involves names cs x) : ∃ sort, declaration x sort ∈ p'.sent := by
  obtain ⟨⟨⟩, u, hdeclare, hassert⟩ := Stateful.exists_of_bind_eq hrun
  have hu : Tracks sig accepted u := by
    have hkept := keeps_declare (c.observed names) p (h.underway none)
    rw [hdeclare] at hkept
    exact hkept.toTracks
  rcases hx with hx | hx
  · obtain ⟨sort, hsort⟩ := h.declared_of_forM (congrArg Prod.fst hdeclare) x hx
    obtain ⟨new, hnew, -⟩ := emits_assert (c.violation cs) u
    rw [hassert] at hnew
    exact ⟨sort, hnew ▸ List.mem_append_left _ ((congrArg (fun r => sent r.2) hdeclare) ▸ hsort)⟩
  · exact declared_of_assert hu hassert x hx

/-! ## What can be read back -/

theorem over_declaration_iff {P : String → Prop} (hhead : P "declare-const") {sort : VarSort}
    (hsort : P sort.print) {x : String} : (declaration x sort).Over P ↔ P x := by
  simp [declaration, Sexp.over_app_iff, Sexp.over_sym_iff, hhead, hsort]

theorem read_declaration_iff {x : String} (hx : Sexp.Visible x) (sort : VarSort) :
    Sexp.read (declaration x sort).print = .ok (declaration x sort) ↔ Sexp.Legible x := by
  have hvisible : Sexp.Visible sort.print := by cases sort <;> decide +kernel
  have hlegible : Sexp.Legible sort.print := by cases sort <;> decide +kernel
  rw [Sexp.read_print_iff ((over_declaration_iff (by decide +kernel) hvisible).2 hx) rfl]
  exact over_declaration_iff (by decide +kernel) hlegible

theorem over_assertion_iff {P : String → Prop} (hhead : P "assert")
    (htheory : ∀ f ∈ Term.theorySymbols, P f) {t : Term} :
    (assertion t.toSexp).Over P ↔ ∀ x ∈ t.vars, P x := by
  simp only [Term.mem_vars_iff, ← Term.over_toSexp_iff htheory]
  simp [assertion, Sexp.over_app_iff, hhead]

theorem read_assertion_iff {t : Term} (ht : ∀ x ∈ t.vars, Sexp.Visible x) :
    Sexp.read (assertion t.toSexp).print = .ok (assertion t.toSexp) ↔
      ∀ x ∈ t.vars, Sexp.Legible x := by
  have hvisible : ∀ f ∈ Term.theorySymbols, Sexp.Visible f := by decide +kernel
  have hlegible : ∀ f ∈ Term.theorySymbols, Sexp.Legible f := by decide +kernel
  rw [Sexp.read_print_iff ((over_assertion_iff (by decide +kernel) hvisible).2 ht) rfl]
  exact over_assertion_iff (by decide +kernel) hlegible

theorem Poses.read {y : Sexp} (hy : Poses c names cs y)
    (hvisible : ∀ x, c.Involves names cs x → Sexp.Visible x)
    (hlegible : ∀ x, c.Involves names cs x → Sexp.Legible x) : Sexp.read y.print = .ok y := by
  cases hy with
  | declares hx sort => exact (read_declaration_iff (hvisible _ hx) sort).2 (hlegible _ hx)
  | asserts =>
    exact (read_assertion_iff fun x hx => hvisible x (.inr hx)).2 fun x hx => hlegible x (.inr hx)

theorem tracks_of_launch {programs : String → Option Peer} {l : Launch}
    {transcript : Option Transcript} {p₀ : PipedSession}
    (hlaunch : launch programs l transcript sig = .ok p₀) (calls : List Session.Request) :
    Tracks sig (True ∧ Accepts p₀ calls) (after p₀ calls) := by
  have hstart := underway_launch hlaunch
  refine (hstart.toTracks.run (fun i y hy => ?_) calls).1
  exact ⟨none, hstart.admissible i y (Nat.zero_le i) hy⟩

/-- A session that poses the question of a clause writes declarations of its versioned variables and
the assertion of its violation, and nothing else. All of it can be read back if the names that the
clause concerns are legible or empty. If one of them is neither, a session that succeeds has written
a declaration that cannot be. -/
theorem question_reads_back_iff {description : Description} {a : Automaton} {s : ClauseSystem}
    (ha : Automaton.ofDescription description = .ok a) (hs : ClauseSystem.ofAutomaton a = .ok s)
    (hc : c ∈ s.clauses) (hcs : ∀ l, ∀ x ∈ (cs.formula l).vars, x ∈ a.names)
    {programs : String → Option Peer} {l : Launch} {transcript : Option Transcript}
    {p₀ : PipedSession} (hlaunch : launch programs l transcript s.signature = .ok p₀)
    (calls : List Session.Request) {r : Except SessionError Unit}
    (hpose : pose c a.names cs (after p₀ calls) = (r, p')) :
    ∃ new, p'.sent = (after p₀ calls).sent ++ new ∧ (∀ y ∈ new, Poses c a.names cs y) ∧
      (c.NamesLegible a.names → ∀ y ∈ new, Sexp.read y.print = .ok y) ∧
      (r = .ok () →
        assertion (c.violation cs).toSexp ∈ new ∧
        (∀ x, c.Involves a.names cs x → ∃ sort, declaration x sort ∈ p'.sent) ∧
        ((∀ y ∈ p'.sent, Poses c a.names cs y → Sexp.read y.print = .ok y) ↔
          c.NamesLegible a.names)) := by
  have hnames : ∀ x, c.Involves a.names cs x → ∃ y ∈ a.names, ∃ k, x = versioned y k :=
    fun x => Clause.Involves.exists_name (Automaton.wellFormed_of_ofDescription ha) hs hc hcs
  have hvisible : ∀ x, c.Involves a.names cs x → Sexp.Visible x := by
    intro x hx
    obtain ⟨y, -, k, rfl⟩ := hnames x hx
    exact Sexp.visible_versioned y k
  have hread : c.NamesLegible a.names → ∀ y, Poses c a.names cs y → Sexp.read y.print = .ok y :=
    fun hlegible y hy => hy.read hvisible ((Clause.namesLegible_iff hnames).1 hlegible)
  obtain ⟨new, hnew, hposes, hleast⟩ := emits_pose c a.names cs (after p₀ calls)
  rw [hpose] at hnew hleast
  refine ⟨new, hnew, hposes, fun hlegible y hy => hread hlegible y (hposes y hy), ?_⟩
  rintro rfl
  have hdeclared : ∀ x, c.Involves a.names cs x → ∃ sort, declaration x sort ∈ p'.sent :=
    fun x => declared_of_pose (tracks_of_launch hlaunch calls) hpose
  refine ⟨(hleast () rfl).subset List.mem_cons_self, hdeclared, fun h => ?_,
    fun hlegible y _ => hread hlegible y⟩
  refine (Clause.namesLegible_iff hnames).2 fun x hx => ?_
  obtain ⟨sort, hsort⟩ := hdeclared x hx
  exact (read_declaration_iff (hvisible x hx) sort).1 (h _ hsort (.declares hx sort))

def signLoop (x : String) : Automaton where
  decls := [⟨x, .int⟩]
  locations := ["start", "loop", "error"]
  entry := 0
  error := 2
  edges := [⟨0, 1, [.havoc x]⟩, ⟨1, 1, [.assign x (.neg (.var x))]⟩,
    ⟨1, 2, [.assume (.rel .lt (.var x) (.int 0))]⟩]

def notNegative (x : String) : Candidates := .const [[.rel .geq (.var x) (.int 0)]]

/-- What is written for the body of the loop if the variable's name has a quote. -/
def quotedQuestion : List String :=
  ["(declare-const |it's@0| Int)", "(declare-const |it's@1| Int)",
    "(assert (and (>= |it's@0| 0) (= |it's@1| (- |it's@0|)) (< |it's@1| 0)))"]

theorem quotedName_read_back :
    ∃ s c p₀ p' new, ClauseSystem.ofAutomaton (signLoop "it's") = .ok s ∧
      s.clauses[1]? = some c ∧
      launch (fun _ => some {}) { program := "z3" } none s.signature = .ok p₀ ∧
      pose c ["it's"] (notNegative "it's") p₀ = (.ok (), p') ∧ p'.sent = p₀.sent ++ new ∧
      new.map Sexp.print = quotedQuestion ∧ ∀ y ∈ new, Sexp.read y.print = .ok y := by
  have hrun : ∃ s c p₀, ClauseSystem.ofAutomaton (signLoop "it's") = .ok s ∧
      s.clauses[1]? = some c ∧
      launch (fun _ => some {}) { program := "z3" } none s.signature = .ok p₀ ∧
      (pose c ["it's"] (notNegative "it's") p₀).1 = .ok () ∧
      (pose c ["it's"] (notNegative "it's") p₀).2.sent.map Sexp.print =
        p₀.sent.map Sexp.print ++ quotedQuestion :=
    ⟨_, _, _, rfl, rfl, rfl, by decide +kernel⟩
  obtain ⟨s, c, p₀, hs, hc, hlaunch, hok, htext⟩ := hrun
  have ha : Automaton.ofDescription (signLoop "it's").describe = .ok (signLoop "it's") := rfl
  have hcs : ∀ l, ∀ x ∈ ((notNegative "it's").formula l).vars, x ∈ (signLoop "it's").names := by
    intro l x hx
    have hvars : ((notNegative "it's").formula l).vars = ["it's"] := rfl
    rwa [hvars] at hx
  have hlegible : c.NamesLegible (signLoop "it's").names := by
    intro x hx _
    rw [List.mem_singleton.1 hx]
    decide +kernel
  have hpose : pose c ["it's"] (notNegative "it's") p₀ =
      (.ok (), (pose c ["it's"] (notNegative "it's") p₀).2) := Prod.ext hok rfl
  obtain ⟨new, hnew, -, hread, -⟩ := question_reads_back_iff ha hs (List.mem_of_getElem? hc) hcs
    hlaunch [] hpose
  refine ⟨s, c, p₀, _, new, hs, hc, hlaunch, hpose, hnew, ?_, hread hlegible⟩
  have hsent : (pose c ["it's"] (notNegative "it's") p₀).2.sent = p₀.sent ++ new := hnew
  rw [hsent, List.map_append] at htext
  exact List.append_cancel_left htext

/-- A name that starts with a digit is taken apart: the solver is told of a constant named `1`. -/
theorem digitName_misread :
    ∃ s c p₀, Automaton.ofDescription (signLoop "1x").describe = .ok (signLoop "1x") ∧
      ClauseSystem.ofAutomaton (signLoop "1x") = .ok s ∧ s.clauses[1]? = some c ∧
      launch (fun _ => some {}) { program := "z3" } none s.signature = .ok p₀ ∧
      (pose c ["1x"] (notNegative "1x") p₀).1 = .ok () ∧
      declaration "1x@0" .int ∈ (pose c ["1x"] (notNegative "1x") p₀).2.sent ∧
      (declaration "1x@0" .int).print = "(declare-const 1x@0 Int)" ∧
      Sexp.read "(declare-const 1x@0 Int)" =
        .ok (.app "declare-const" [.num 1, .sym "x@0", .sym "Int"]) :=
  ⟨_, _, _, rfl, rfl, rfl, rfl, by decide +kernel⟩

end PipedSession

end LoopInvariant
