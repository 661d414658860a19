import LoopInvariant.Proofs.PipeCommands
import LoopInvariant.Proofs.SortedMap
import LoopInvariant.Session.Piped
/-!
# What a session sends to its solver

A session with a solver process keeps a set of the variables that the solver knows and counts the
open scopes. Both follow the commands that were sent, whatever calls were made and however they
ended, so that every command makes sense to the solver when it comes.
-/

namespace LoopInvariant.PipedSession

open Solver
open Stateful (Keeps)

/-! ## Commands of a session -/

def sent (s : PipedSession) : List Sexp := s.pipe.commands

def declaration (x : String) (sort : VarSort) : Sexp :=
  .app "declare-const" [.sym x, .sym sort.print]

def assertion (formula : Sexp) : Sexp := .app "assert" [formula]

def satQuery : Sexp := .app "check-sat" []

def valueQuery (names : List String) : Sexp := .app "get-value" [.list (names.map .sym)]

def opening : Sexp := .app "push" [.num 1]

def closing : Sexp := .app "pop" [.num 1]

theorem declaration_inj {x x' : String} {sort sort' : VarSort}
    (h : declaration x sort = declaration x' sort') : x = x' ∧ sort = sort' := by
  simp only [declaration, Sexp.app, Sexp.list.injEq, List.cons.injEq, Sexp.sym.injEq, and_true,
    true_and] at h
  refine ⟨h.1, ?_⟩
  have hprint := h.2
  cases sort with
  | bool =>
    cases sort' with
    | bool => rfl
    | int => revert hprint; decide
  | int =>
    cases sort' with
    | bool => revert hprint; decide
    | int => rfl

/-- A command that makes sense after others, in a call about a term. -/
structure Admissible (sig : Signature) (about : Option Term) (before : List Sexp) (y : Sexp) :
    Prop where
  declares : ∀ x sort, y = declaration x sort →
    sig.sortOf? x = some sort ∧ ∀ sort', declaration x sort' ∉ before
  asserts : ∀ f, y = assertion f → ∃ t, about = some t ∧ f = t.toSexp ∧
    ∀ x ∈ t.vars, ∃ sort, sig.sortOf? x = some sort ∧ declaration x sort ∈ before
  asks : ∀ names, y = valueQuery names → ∀ x ∈ names, ∃ sort, declaration x sort ∈ before
  closes : y = closing → before.count closing < before.count opening

/-- How a session keeps up with what was sent, if no closing was refused. -/
structure Tracks (sig : Signature) (accepted : Prop) (s : PipedSession) : Prop where
  signature_eq : s.signature = sig
  quiet : s.pipe.Quiet
  known : ∀ x, s.declared.contains x = true ↔ ∃ sort, declaration x sort ∈ s.sent
  sorts : ∀ x sort, declaration x sort ∈ s.sent → sig.sortOf? x = some sort
  depth_le : s.sent.count closing + s.depth ≤ s.sent.count opening
  depth_eq : accepted → s.sent.count opening = s.sent.count closing + s.depth

/-- Since some were sent, every command made sense when it was. -/
structure SensibleSince (sig : Signature) (about : Option Term) (before : List Sexp)
    (s : PipedSession) : Prop where
  extends_before : before <+: s.sent
  admissible : ∀ i y, before.length ≤ i → s.sent[i]? = some y →
    Admissible sig about (s.sent.take i) y

/-- A session during a call. -/
structure Underway (sig : Signature) (accepted : Prop) (about : Option Term) (before : List Sexp)
    (s : PipedSession) : Prop extends Tracks sig accepted s, SensibleSince sig about before s

variable {sig : Signature} {accepted : Prop} {about : Option Term} {before : List Sexp}
  {s s' : PipedSession}

theorem Tracks.mono (h : Tracks sig accepted s) {accepted' : Prop} (himp : accepted' → accepted) :
    Tracks sig accepted' s :=
  ⟨h.signature_eq, h.quiet, h.known, h.sorts, h.depth_le, fun h' => h.depth_eq (himp h')⟩

theorem sensibleSince_self (s : PipedSession) : SensibleSince sig about s.sent s := by
  refine ⟨List.prefix_rfl, fun i y hi hy => ?_⟩
  rw [List.getElem?_eq_none hi] at hy
  cases hy

theorem Tracks.underway (h : Tracks sig accepted s) (about : Option Term) :
    Underway sig accepted about s.sent s := ⟨h, sensibleSince_self s⟩

theorem SensibleSince.append (h : SensibleSince sig about before s) {new : List Sexp}
    (heq : s'.sent = s.sent ++ new)
    (hnew : ∀ i y, new[i]? = some y → Admissible sig about (s.sent ++ new.take i) y) :
    SensibleSince sig about before s' := by
  refine ⟨heq ▸ h.extends_before.trans (List.prefix_append ..), fun i y hi hy => ?_⟩
  rw [heq] at hy ⊢
  by_cases hold : i < s.sent.length
  · rw [List.getElem?_append_left hold] at hy
    rw [List.take_append_of_le_length (Nat.le_of_lt hold)]
    exact h.admissible i y hi hy
  · have hle : s.sent.length ≤ i := Nat.le_of_not_lt hold
    rw [List.getElem?_append_right hle] at hy
    rw [List.take_append, List.take_of_length_le hle]
    exact hnew _ y hy

theorem SensibleSince.snoc (h : SensibleSince sig about before s) {y : Sexp}
    (heq : s'.sent = s.sent ++ [y]) (hy : Admissible sig about s.sent y) :
    SensibleSince sig about before s' := by
  refine h.append heq fun i z hz => ?_
  rw [List.getElem?_singleton] at hz
  split at hz
  · next hi =>
    cases hz
    rwa [hi, List.take_zero, List.append_nil]
  · cases hz

/-! ## Steps of a session -/

/-- Commands that declare nothing, if the scopes that they open and close are counted. -/
theorem Tracks.extend (h : Tracks sig accepted s) {q : Pipe} {new : List Sexp} {depth : Nat}
    (hquiet : q.Quiet) (hsent : q.commands = s.sent ++ new)
    (hnew : ∀ x sort, declaration x sort ∉ new)
    (hdepth : new.count closing + depth = new.count opening + s.depth) :
    Tracks sig accepted { s with pipe := q, depth } := by
  have hsent : sent { s with pipe := q, depth } = s.sent ++ new := hsent
  have hdeclared : ∀ x sort, declaration x sort ∈ s.sent ++ new ↔ declaration x sort ∈ s.sent := by
    intro x sort
    rw [List.mem_append, or_iff_left (hnew x sort)]
  have hle := h.depth_le
  refine ⟨h.signature_eq, hquiet, fun x => ?_, fun x sort hmem => ?_, ?_, fun haccepted => ?_⟩
  · rw [hsent]
    simp only [hdeclared]
    exact h.known x
  · rw [hsent, hdeclared] at hmem
    exact h.sorts x sort hmem
  · rw [hsent, List.count_append, List.count_append]
    show s.sent.count closing + new.count closing + depth ≤ _
    omega
  · have heq := h.depth_eq haccepted
    rw [hsent, List.count_append, List.count_append]
    show _ = s.sent.count closing + new.count closing + depth
    omega

/-- A command that leaves the declared variables and the open scopes alone. -/
structure Neutral (y : Sexp) : Prop where
  ne_declaration : ∀ x sort, y ≠ declaration x sort
  ne_opening : y ≠ opening
  ne_closing : y ≠ closing

theorem Tracks.of_neutral (h : Tracks sig accepted s) {q : Pipe} {new : List Sexp}
    (hquiet : q.Quiet) (hsent : q.commands = s.sent ++ new) (hnew : ∀ y ∈ new, Neutral y) :
    Tracks sig accepted { s with pipe := q } := by
  have hopening : new.count opening = 0 :=
    List.count_eq_zero.2 fun hmem => (hnew _ hmem).ne_opening rfl
  have hclosing : new.count closing = 0 :=
    List.count_eq_zero.2 fun hmem => (hnew _ hmem).ne_closing rfl
  refine h.extend hquiet hsent (fun x sort hmem => (hnew _ hmem).ne_declaration x sort rfl) ?_
  rw [hopening, hclosing]

theorem perform_run {α : Type} (a : Action α) (s : PipedSession) :
    perform a s = ((a s.pipe).1.mapError .solver, { s with pipe := (a s.pipe).2 }) := rfl

/-- An action that writes only neutral commands, which make sense whatever was sent meanwhile. -/
theorem Underway.perform {α : Type} {a : Action α} {kind : Sexp → Prop}
    (h : Underway sig accepted about before s) (ha : Pipe.Writes kind a)
    (hneutral : ∀ y, kind y → Neutral y)
    (hsensible : ∀ y, kind y → ∀ after, s.sent <+: after → Admissible sig about after y) :
    Underway sig accepted about before (perform a s).2 := by
  obtain ⟨new, hnew, hkind, -⟩ := ha.emits s.pipe
  rw [perform_run]
  refine ⟨h.toTracks.of_neutral (ha.quiet h.quiet) hnew fun y hy => hneutral y (hkind y hy), ?_⟩
  refine h.toSensibleSince.append hnew fun i y hy => ?_
  exact hsensible y (hkind y (List.mem_of_getElem? hy)) _ (List.prefix_append ..)

theorem perform_send (h : s.pipe.Quiet) (x : Sexp) :
    (∃ q, perform (Pipe.send x) s = (.ok (), { s with pipe := q }) ∧ q.Quiet ∧
      q.commands = s.sent ++ [x]) ∨
    ∃ e q, perform (Pipe.send x) s = (.error e, { s with pipe := q }) ∧ q.Quiet ∧
      q.commands = s.sent ∧ q.peer.alive = false := by
  rw [perform_run]
  rcases Pipe.send_of_quiet h x with ⟨q, hq, hquiet, hsent⟩ | ⟨e, q, hq, hquiet, hsent, hexit⟩
  · rw [hq]
    exact .inl ⟨q, rfl, hquiet, hsent⟩
  · rw [hq]
    exact .inr ⟨_, q, rfl, hquiet, hsent, hexit⟩

theorem Underway.fail (h : Underway sig accepted about before s) {q : Pipe} (hquiet : q.Quiet)
    (hsent : q.commands = s.sent) : Underway sig accepted about before { s with pipe := q } := by
  have hsent : q.commands = s.sent ++ [] := hsent.trans (List.append_nil _).symm
  refine ⟨h.toTracks.of_neutral hquiet hsent fun y hy => ?_,
    h.toSensibleSince.append hsent fun i y hy => ?_⟩
  · cases hy
  · cases hy

theorem opening_ne_closing : opening ≠ closing := by decide

theorem opening_ne_declaration (x : String) (sort : VarSort) : opening ≠ declaration x sort := by
  simp [opening, declaration, Sexp.app]

theorem closing_ne_declaration (x : String) (sort : VarSort) : closing ≠ declaration x sort := by
  simp [closing, declaration, Sexp.app]

theorem push_run (s : PipedSession) :
    (Session.push : SessionM PipedSession Unit) s = (perform (Pipe.send opening) >>= fun _ =>
      modify fun s => { s with depth := s.depth + 1 }) s := rfl

theorem keeps_push : Keeps (Underway sig accepted about before)
    (Session.push : SessionM PipedSession Unit) := by
  intro s h
  rw [push_run]
  rcases perform_send h.quiet opening with ⟨q, hq, hquiet, hsent⟩ |
    ⟨e, q, hq, hquiet, hsent, -⟩
  · rw [Stateful.bind_of_ok hq]
    show Underway sig accepted about before { s with pipe := q, depth := s.depth + 1 }
    refine ⟨h.toTracks.extend hquiet hsent (fun x sort hmem => ?_) ?_,
      h.toSensibleSince.snoc hsent ?_⟩
    · exact opening_ne_declaration x sort (List.mem_singleton.1 hmem).symm
    · rw [List.count_singleton_self, List.count_singleton, if_neg (by decide)]
      omega
    · constructor
      · exact fun x sort heq => absurd heq (opening_ne_declaration x sort)
      · simp [opening, assertion, Sexp.app]
      · simp [opening, valueQuery, Sexp.app]
      · exact fun heq => absurd heq opening_ne_closing
  · rw [Stateful.bind_of_error hq]
    exact h.fail hquiet hsent

theorem pop_run (s : PipedSession) :
    (Session.pop : SessionM PipedSession Unit) s =
      if s.depth = 0 then (.error .popEmpty, s)
      else perform (Pipe.send closing) { s with depth := s.depth - 1 } := by
  show (if s.depth = 0 then throw .popEmpty else _ : SessionM PipedSession Unit) s = _
  split
  · rfl
  · rfl

/-- A scope counts as closed even if the closing is refused. -/
theorem Underway.pop (h : Underway sig accepted about before s) :
    Underway sig
      (accepted ∧ (s.depth ≠ 0 →
        ((Session.pop : SessionM PipedSession Unit) s).2.pipe.peer.alive = true))
      about before ((Session.pop : SessionM PipedSession Unit) s).2 := by
  rw [pop_run]
  split
  · exact ⟨h.toTracks.mono And.left, h.toSensibleSince⟩
  · next hdepth =>
    have hle := h.depth_le
    have hquiet : ({ s with depth := s.depth - 1 } : PipedSession).pipe.Quiet := h.quiet
    rcases perform_send hquiet closing with ⟨q, hq, hquiet, hsent⟩ |
      ⟨e, q, hq, hquiet, hsent, hexit⟩
    · have hscope : Tracks sig accepted { s with pipe := q, depth := s.depth - 1 } := by
        refine h.toTracks.extend hquiet hsent (fun x sort hmem => ?_) ?_
        · exact closing_ne_declaration x sort (List.mem_singleton.1 hmem).symm
        · rw [List.count_singleton_self, List.count_singleton, if_neg (by decide)]
          omega
      rw [hq]
      refine ⟨hscope.mono And.left, h.toSensibleSince.snoc hsent ?_⟩
      constructor
      · exact fun x sort heq => absurd heq (closing_ne_declaration x sort)
      · simp [closing, assertion, Sexp.app]
      · simp [closing, valueQuery, Sexp.app]
      · exact fun _ => by omega
    · have hfail := h.fail hquiet hsent
      rw [hq]
      refine ⟨⟨hfail.signature_eq, hquiet, hfail.known, hfail.sorts, ?_, fun haccepted => ?_⟩,
        ⟨hfail.extends_before, hfail.admissible⟩⟩
      · exact Nat.le_trans (Nat.add_le_add_left (Nat.sub_le s.depth 1) _) hfail.depth_le
      · cases hexit.symm.trans (haccepted.2 hdepth)

theorem sortOf_eq_ok {x : String} {sort : VarSort} :
    sig.sortOf x = .ok sort ↔ sig.sortOf? x = some sort := by
  rw [Signature.sortOf]
  cases sig.sortOf? x with
  | none => simp
  | some sort' => simp

theorem declareOne_run (x : String) (s : PipedSession) :
    declareOne x s =
      if s.declared.contains x = true then (.ok (), s)
      else (Session.ofResult (s.signature.sortOf x) >>= fun sort =>
        perform (Pipe.send (declaration x sort)) >>= fun _ =>
          modify fun s => { s with declared := s.declared.insert x }) s := by
  show (if s.declared.contains x = true then pure () else _ : SessionM PipedSession Unit) s = _
  split
  · rfl
  · rfl

theorem declareOne_cases (h : s.pipe.Quiet) (x : String) :
    (declareOne x s = (.ok (), s) ∧ s.declared.contains x = true) ∨
    (∃ e, declareOne x s = (.error e, s)) ∨
    (∃ sort q, s.signature.sortOf? x = some sort ∧ ¬s.declared.contains x = true ∧
      declareOne x s = (.ok (), { s with pipe := q, declared := s.declared.insert x }) ∧ q.Quiet ∧
      q.commands = s.sent ++ [declaration x sort]) ∨
    ∃ e q, declareOne x s = (.error e, { s with pipe := q }) ∧ q.Quiet ∧ q.commands = s.sent := by
  rw [declareOne_run]
  split
  · next hknown => exact .inl ⟨rfl, hknown⟩
  · next hnew =>
    have hsort : ∀ r, Session.ofResult (s.signature.sortOf x) s = (r, s) ↔
        s.signature.sortOf x = r := by
      intro r
      rw [Session.ofResult, Prod.mk.injEq]
      exact and_iff_left rfl
    cases hresult : s.signature.sortOf x with
    | error e =>
      rw [← hresult, Stateful.bind_of_error ((hsort _).2 hresult)]
      exact .inr (.inl ⟨e, rfl⟩)
    | ok sort =>
      rw [← hresult, Stateful.bind_of_ok ((hsort _).2 hresult)]
      rcases perform_send h (declaration x sort) with ⟨q, hq, hquiet, hsent⟩ |
        ⟨e, q, hq, hquiet, hsent, -⟩
      · rw [Stateful.bind_of_ok hq]
        exact .inr (.inr (.inl ⟨sort, q, sortOf_eq_ok.1 hresult, hnew, rfl, hquiet, hsent⟩))
      · rw [Stateful.bind_of_error hq]
        exact .inr (.inr (.inr ⟨e, q, rfl, hquiet, hsent⟩))

theorem Tracks.declared (h : Tracks sig accepted s) {q : Pipe} {x : String} {sort : VarSort}
    (hsort : sig.sortOf? x = some sort) (hquiet : q.Quiet)
    (hsent : q.commands = s.sent ++ [declaration x sort]) :
    Tracks sig accepted { s with pipe := q, declared := s.declared.insert x } := by
  have hsent : sent { s with pipe := q, declared := s.declared.insert x } =
      s.sent ++ [declaration x sort] := hsent
  have hopening : [declaration x sort].count opening = 0 := by
    rw [List.count_singleton, if_neg]
    simpa using (opening_ne_declaration x sort).symm
  have hclosing : [declaration x sort].count closing = 0 := by
    rw [List.count_singleton, if_neg]
    simpa using (closing_ne_declaration x sort).symm
  refine ⟨h.signature_eq, hquiet, fun y => ?_, fun y sort' hmem => ?_, ?_, fun hq => ?_⟩
  · rw [hsent]
    simp only [List.mem_append, List.mem_singleton, exists_or, ← h.known y]
    show (s.declared.insert x).contains y = true ↔ _
    rw [SortedSet.contains_iff_mem_toList, SortedSet.contains_iff_mem_toList,
      SortedSet.mem_toList_insert]
    constructor
    · intro hy
      rcases hy with rfl | hy
      · exact .inr ⟨sort, rfl⟩
      · exact .inl hy
    · intro hy
      rcases hy with hy | ⟨sort', hy⟩
      · exact .inr hy
      · exact .inl (declaration_inj hy).1
  · rw [hsent, List.mem_append, List.mem_singleton] at hmem
    rcases hmem with hmem | heq
    · exact h.sorts y sort' hmem
    · obtain ⟨rfl, rfl⟩ := declaration_inj heq
      exact hsort
  · rw [hsent, List.count_append, List.count_append, hopening, hclosing]
    exact h.depth_le
  · rw [hsent, List.count_append, List.count_append, hopening, hclosing]
    exact h.depth_eq hq

theorem keeps_declareOne (x : String) :
    Keeps (Underway sig accepted about before) (declareOne x) := by
  intro s h
  rcases declareOne_cases h.quiet x with ⟨hrun, -⟩ | ⟨e, hrun⟩ |
    ⟨sort, q, hsort, hnew, hrun, hquiet, hsent⟩ | ⟨e, q, hrun, hquiet, hsent⟩
  · rw [hrun]
    exact h
  · rw [hrun]
    exact h
  · rw [hrun]
    rw [h.signature_eq] at hsort
    refine ⟨h.toTracks.declared hsort hquiet hsent, h.toSensibleSince.snoc hsent ?_⟩
    constructor
    · intro y sort' heq
      obtain ⟨rfl, rfl⟩ := declaration_inj heq
      exact ⟨hsort, fun sort' hmem => hnew ((h.known x).2 ⟨sort', hmem⟩)⟩
    · simp [declaration, assertion, Sexp.app]
    · simp [declaration, valueQuery, Sexp.app]
    · exact fun heq => absurd heq.symm (closing_ne_declaration x sort)
  · rw [hrun]
    exact h.fail hquiet hsent

/-! ## Calls -/

theorem keeps_declare (xs : List String) :
    Keeps (Underway sig accepted about before)
      (Session.declare xs : SessionM PipedSession Unit) :=
  Stateful.keeps_forM keeps_declareOne xs

/-- If all goes well, the solver knows all of the variables. -/
theorem Tracks.declared_of_forM (h : Tracks sig accepted s) {xs : List String}
    (hrun : (xs.forM declareOne s).1 = .ok ()) :
    ∀ x ∈ xs, ∃ sort, declaration x sort ∈ (xs.forM declareOne s).2.sent := by
  induction xs generalizing s with
  | nil => exact fun x hx => absurd hx List.not_mem_nil
  | cons x xs ih =>
    obtain ⟨⟨⟩, hfirst, hrest⟩ := Stateful.exists_of_bind (a := declareOne x) hrun
    have hstep : declareOne x s = (.ok (), (declareOne x s).2) := Prod.ext hfirst rfl
    have hnext : Tracks sig accepted (declareOne x s).2 :=
      (keeps_declareOne x s (h.underway none)).toTracks
    have hknown : (declareOne x s).2.declared.contains x = true := by
      rcases declareOne_cases h.quiet x with ⟨heq, hknown⟩ | ⟨e, heq⟩ |
        ⟨sort, q, -, -, heq, -⟩ | ⟨e, q, heq, -⟩
      · rwa [heq]
      · rw [heq] at hfirst
        cases hfirst
      · rw [heq]
        exact SortedSet.contains_iff_mem_toList.2 (SortedSet.mem_toList_insert.2 (.inl rfl))
      · rw [heq] at hfirst
        cases hfirst
    have hlast : (declareOne x s).2.sent <+: (xs.forM declareOne (declareOne x s).2).2.sent :=
      (Stateful.keeps_forM keeps_declareOne xs _ (hnext.underway none)).extends_before
    have hforM : (x :: xs).forM declareOne s = xs.forM declareOne (declareOne x s).2 :=
      Stateful.bind_of_ok hstep
    rw [hforM]
    intro y hy
    rcases List.mem_cons.1 hy with rfl | hy
    · obtain ⟨sort, hsort⟩ := (hnext.known y).1 hknown
      exact ⟨sort, hlast.subset hsort⟩
    · exact ih hnext hrest y hy

theorem keeps_assert (t : Term) :
    Keeps (Underway sig accepted (some t) before)
      (Session.assert t : SessionM PipedSession Unit) := by
  intro s h
  have hdeclared := Stateful.keeps_forM keeps_declareOne t.vars s h
  show Underway sig accepted (some t) before
    ((t.vars.forM declareOne >>= fun _ => perform (Pipe.send (assertion t.toSexp))) s).2
  rcases hrun : t.vars.forM declareOne s with ⟨e | ⟨⟩, s₁⟩
  · rw [Stateful.bind_of_error hrun]
    rwa [hrun] at hdeclared
  · have hknown := h.toTracks.declared_of_forM (congrArg Prod.fst hrun)
    rw [hrun] at hdeclared hknown
    rw [Stateful.bind_of_ok hrun]
    refine hdeclared.perform (Pipe.writes_send _) (fun y hy => ?_) fun y hy after hafter => ?_
    · subst hy
      constructor <;> simp [assertion, declaration, opening, closing, Sexp.app]
    · subst hy
      constructor
      · simp [assertion, declaration, Sexp.app]
      · intro f hf
        have hformula : f = t.toSexp := by simpa [assertion, Sexp.app] using hf.symm
        refine ⟨t, rfl, hformula, fun x hx => ?_⟩
        obtain ⟨sort, hsort⟩ := hknown x hx
        exact ⟨sort, hdeclared.sorts x sort hsort, hafter.subset hsort⟩
      · simp [assertion, valueQuery, Sexp.app]
      · simp [assertion, closing, Sexp.app]

theorem checkSat_run (s : PipedSession) :
    ((Session.checkSat : SessionM PipedSession SatAnswer) s).2 = (perform Pipe.checkSat s).2 := by
  simp only [Session.checkSat]
  split
  · next hrun => rw [hrun]
  · rfl

theorem keeps_checkSat :
    Keeps (Underway sig accepted about before)
      (Session.checkSat : SessionM PipedSession SatAnswer) := by
  intro s h
  rw [checkSat_run]
  refine h.perform Pipe.writes_checkSat (fun y hy => ?_) fun y hy after _ => ?_
  · rcases hy with rfl | rfl <;>
      constructor <;> simp [declaration, opening, closing, Sexp.app]
  · rcases hy with rfl | rfl <;>
      constructor <;> simp [declaration, assertion, valueQuery, closing, Sexp.app]

theorem model_cases (xs : List String) (s : PipedSession) :
    (∃ e, (Session.model xs : SessionM PipedSession Valuation) s = (.error e, s)) ∨
      ((∀ x ∈ xs, s.declared.contains x = true) ∧
        (Session.model xs : SessionM PipedSession Valuation) s =
          (perform (Pipe.values xs) >>= fun answer =>
            Session.ofResult (readValues s.signature answer)) s) := by
  have hget : (get : SessionM PipedSession PipedSession) s = (.ok s, s) := rfl
  cases hfind : xs.find? fun x => !s.declared.contains x with
  | some x =>
    refine .inl ⟨.undeclared x, (Stateful.bind_of_ok hget).trans ?_⟩
    rw [hfind]
    rfl
  | none =>
    refine .inr ⟨fun x hx => ?_, ?_⟩
    · simpa using List.find?_eq_none.1 hfind x hx
    · refine (Stateful.bind_of_ok hget).trans ?_
      rw [hfind]

theorem keeps_model (xs : List String) :
    Keeps (Underway sig accepted about before)
      (Session.model xs : SessionM PipedSession Valuation) := by
  intro s h
  rcases model_cases xs s with ⟨e, hrun⟩ | ⟨hdeclared, hrun⟩
  · rw [hrun]
    exact h
  · rw [hrun]
    have hvalues : Underway sig accepted about before (perform (Pipe.values xs) s).2 := by
      refine h.perform (Pipe.writes_values xs) (fun y hy => ?_) fun y hy after hafter => ?_
      · subst hy
        constructor <;> simp [declaration, opening, closing, Sexp.app]
      · subst hy
        constructor
        · simp [declaration, Sexp.app]
        · simp [assertion, Sexp.app]
        · intro names hnames x hx
          have hmem : x ∈ xs := by
            have hsyms : xs.map Sexp.sym = names.map Sexp.sym := by
              simpa [valueQuery, Sexp.app] using hnames
            rwa [(List.map_inj_right fun _ _ => Sexp.sym.inj).1 hsyms]
          obtain ⟨sort, hsort⟩ := (h.known x).1 (hdeclared x hmem)
          exact ⟨sort, hafter.subset hsort⟩
        · simp [closing, Sexp.app]
    exact Stateful.bind_of_leads (fun _ hs => hs) hvalues fun answer s hs => hs

end LoopInvariant.PipedSession
