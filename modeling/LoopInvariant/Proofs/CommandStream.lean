import LoopInvariant.Proofs.Dialogue
import LoopInvariant.Proofs.SessionCommands
/-!
# The stream of commands

From the start of a solver on, calls are made on a session in any order. Whatever they come to, the
solver gets a stream of commands that makes sense as a whole: constants are declared once and before
they are used, and no scope is closed that is not open.
-/

namespace LoopInvariant.PipedSession

open Session (Request lookUp inquiry)
open Solver
open Stateful (Keeps Emits emits_nothing)

variable {α : Type} {sig : Signature} {accepted : Prop} {about : Option Term} {before : List Sexp}
  {s s' : PipedSession} {kind : Sexp → Prop} {least : α → List Sexp}

/-! ## What a call sends if it succeeds -/

theorem emits_perform {a : Action α} (ha : Emits Pipe.commands kind least a) :
    Emits sent kind least (perform a) := by
  intro s
  obtain ⟨new, hnew, hkind, hleast⟩ := ha s.pipe
  refine ⟨new, hnew, hkind, fun v hv => hleast v ?_⟩
  rw [perform_run] at hv
  cases hr : (a s.pipe).1 with
  | error e =>
    rw [hr] at hv
    cases hv
  | ok w =>
    rw [hr] at hv
    cases hv
    rfl

theorem emits_push :
    Emits sent (· = opening) (fun _ => [opening]) (Session.push : SessionM PipedSession Unit) :=
  (emits_perform (Pipe.emits_send opening)).bind
    (fun _ => emits_nothing (fun _ => rfl) fun _ _ _ => rfl) fun _ _ => List.Sublist.refl _

theorem emits_pop :
    Emits sent (· = closing) (fun _ => [closing]) (Session.pop : SessionM PipedSession Unit) := by
  intro s
  rw [pop_run]
  split
  · refine ⟨[], (List.append_nil _).symm, fun y hy => ?_, fun v hv => ?_⟩
    · cases hy
    · cases hv
  · exact emits_perform (Pipe.emits_send closing) { s with depth := s.depth - 1 }

theorem emits_declareOne (x : String) :
    Emits sent (fun y => ∃ sort, y = declaration x sort) (fun _ => []) (declareOne x) := by
  intro s
  rw [declareOne_run]
  split
  · exact ⟨[], (List.append_nil _).symm, fun y hy => absurd hy List.not_mem_nil,
      fun _ _ => List.nil_sublist []⟩
  · have hsort : Emits sent (fun y => ∃ sort, y = declaration x sort) (fun _ => [])
        (Session.ofResult (s.signature.sortOf x)) := emits_nothing (fun _ => rfl) fun _ _ _ => rfl
    refine hsort.bind (d := fun _ _ => []) (fun sort => ?_) (fun _ _ => List.Sublist.refl _) s
    refine Emits.bind ((emits_perform (Pipe.emits_send _)).mono fun y hy => ⟨sort, hy⟩)
      (d := fun _ _ => []) (fun _ => ?_) fun _ _ => List.nil_sublist _
    exact emits_nothing (fun _ => rfl) fun _ _ _ => rfl

theorem emits_declare (xs : List String) :
    Emits sent (fun y => ∃ x ∈ xs, ∃ sort, y = declaration x sort) (fun _ => [])
      (Session.declare xs : SessionM PipedSession Unit) :=
  Stateful.emits_forM fun x hx => (emits_declareOne x).mono fun _ hy => ⟨x, hx, hy⟩

theorem emits_assert (t : Term) :
    Emits sent (fun y => (∃ x ∈ t.vars, ∃ sort, y = declaration x sort) ∨ y = assertion t.toSexp)
      (fun _ => [assertion t.toSexp]) (Session.assert t : SessionM PipedSession Unit) := by
  refine Emits.bind ((emits_declare t.vars).mono fun y hy => .inl hy) (fun _ => ?_)
    fun _ _ => List.Sublist.refl _
  exact (emits_perform (Pipe.emits_send _)).mono fun y hy => .inr hy

theorem emits_checkSat :
    Emits sent (fun y => y = satQuery ∨ y = .app "get-info" [.sym ":reason-unknown"])
      (fun _ => [satQuery]) (Session.checkSat : SessionM PipedSession SatAnswer) := by
  intro s
  obtain ⟨new, hnew, hkind, hleast⟩ := emits_perform Pipe.emits_checkSat s
  refine ⟨new, (congrArg sent (checkSat_run s)).trans hnew, hkind, fun v hv => hleast v ?_⟩
  simp only [Session.checkSat] at hv
  split at hv
  · cases hv
  · exact hv

def asking (xs : List String) : List Sexp := if xs = [] then [] else [valueQuery xs]

theorem emits_model (xs : List String) :
    Emits sent (fun y => ∃ xs, y = valueQuery xs) (fun _ => asking xs)
      (Session.model xs : SessionM PipedSession Valuation) := by
  have hvalues : Emits Pipe.commands (fun y => ∃ xs, y = valueQuery xs) (fun _ => asking xs)
      (Pipe.values xs) := by
    rw [asking]
    split
    · exact (Pipe.writes_values xs).emits.mono fun y hy => ⟨xs, hy⟩
    · next hxs => exact (Pipe.emits_values hxs).mono fun y hy => ⟨xs, hy⟩
  intro s
  rcases model_cases xs s with ⟨e, hrun⟩ | ⟨-, hrun⟩
  · rw [hrun]
    refine ⟨[], (List.append_nil _).symm, fun y hy => ?_, fun v hv => ?_⟩
    · cases hy
    · cases hv
  · rw [hrun]
    refine (emits_perform hvalues).bind (d := fun _ _ => []) (fun answer => ?_)
      (fun _ _ => List.sublist_append_left _ _) s
    exact emits_nothing (fun _ => rfl) fun _ _ _ => rfl

theorem emits_inScope {a : SessionM PipedSession α} (ha : Emits sent (fun _ => True) least a) :
    Emits sent (fun _ => True) (fun v => opening :: (least v ++ [closing]))
      (Session.inScope a) := by
  intro s
  obtain ⟨first, hfirst, -, hopening⟩ := emits_push s
  rcases hpush : (Session.push : SessionM PipedSession Unit) s with ⟨e | ⟨⟩, s'⟩
  · rw [hpush] at hfirst
    rw [Session.inScope_of_error hpush]
    exact ⟨first, hfirst, fun _ _ => trivial, fun v hv => by cases hv⟩
  · rw [hpush] at hfirst hopening
    rw [Session.inScope_of_ok hpush]
    obtain ⟨middle, hmiddle, -, hleast⟩ := ha s'
    obtain ⟨last, hlast, -, hclosing⟩ := emits_pop (a s').2
    refine ⟨first ++ (middle ++ last), ?_, fun _ _ => trivial, fun v hv => ?_⟩
    · rw [hlast, hmiddle, hfirst]
      simp only [List.append_assoc]
    · obtain ⟨w, hw, hmap⟩ := bind_eq_ok.1 hv
      obtain ⟨⟨⟩, hpop, rfl⟩ := map_eq_ok.1 hmap
      exact (hopening () rfl).append ((hleast w hw).append (hclosing () hpop))

theorem emits_lookUp (xs : List String) (answer : SatAnswer) :
    Emits sent (fun _ => True)
      (fun r : Option Valuation => if r.isSome = true then asking xs else [])
      (lookUp xs answer).run := by
  cases answer with
  | sat =>
    rw [Session.run_lookUp_sat]
    exact Emits.map ((emits_model xs).mono fun _ _ => trivial)
  | unsat =>
    refine emits_nothing (fun _ => rfl) fun s v hv => ?_
    cases hv
    rfl
  | unknown reason =>
    refine emits_nothing (fun _ => rfl) fun s v hv => ?_
    cases hv

theorem emits_modelOf (t : Term) (xs : List String) :
    Emits sent (fun _ => True)
      (fun r => opening :: assertion t.toSexp :: satQuery ::
        ((if r.isSome = true then asking xs else []) ++ [closing]))
      (Session.modelOf t xs : SessionM PipedSession (Option Valuation)) := by
  have hcheck : Emits sent (fun _ => True)
      (fun r : Option Valuation => satQuery :: if r.isSome = true then asking xs else [])
      (Session.checkSat >>= fun answer => (lookUp xs answer).run) :=
    Emits.bind (emits_checkSat.mono fun _ _ => trivial) (emits_lookUp xs)
      fun _ _ => List.Sublist.refl _
  have hassert : Emits sent (fun _ => True)
      (fun r : Option Valuation => assertion t.toSexp :: satQuery ::
        if r.isSome = true then asking xs else [])
      (Session.assert t >>= fun _ => Session.checkSat >>= fun answer => (lookUp xs answer).run) :=
    Emits.bind ((emits_assert t).mono fun _ _ => trivial) (fun _ => hcheck)
      fun _ _ => List.Sublist.refl _
  rw [Session.modelOf_eq_inScope, Session.run_inquiry]
  exact emits_inScope (Emits.bind ((emits_declare xs).mono fun _ _ => trivial) (fun _ => hassert)
    fun _ _ => List.Sublist.refl _)

/-! ## No declaration after a check -/

/-- Since then no check was asked for. -/
def Unasked (before : List Sexp) (s : PipedSession) : Prop :=
  ∃ new, s.sent = before ++ new ∧ satQuery ∉ new

/-- Since then nothing was declared once a check was asked for. -/
def Settled (before : List Sexp) (s : PipedSession) : Prop :=
  ∃ new later, s.sent = before ++ new ++ later ∧ satQuery ∉ new ∧
    ∀ x sort, declaration x sort ∉ later

theorem Unasked.settled (h : Unasked before s) : Settled before s := by
  obtain ⟨new, hnew, hunasked⟩ := h
  exact ⟨new, [], hnew.trans (List.append_nil _).symm, hunasked, fun _ _ => List.not_mem_nil⟩

theorem keeps_unasked {a : SessionM PipedSession α} (ha : Emits sent (· ≠ satQuery) least a) :
    Keeps (Unasked before) a := by
  intro s hs
  obtain ⟨new, hnew, hunasked⟩ := hs
  obtain ⟨more, hmore, hkind, -⟩ := ha s
  refine ⟨new ++ more, by rw [hmore, hnew, List.append_assoc], fun hmem => ?_⟩
  exact (List.mem_append.1 hmem).elim hunasked fun hmem => hkind _ hmem rfl

theorem keeps_settled {a : SessionM PipedSession α}
    (ha : Emits sent (fun y => ∀ x sort, y ≠ declaration x sort) least a) :
    Keeps (Settled before) a := by
  intro s hs
  obtain ⟨new, later, hsent, hunasked, hlater⟩ := hs
  obtain ⟨more, hmore, hkind, -⟩ := ha s
  refine ⟨new, later ++ more, by rw [hmore, hsent, List.append_assoc], hunasked, ?_⟩
  exact fun x sort hmem => (List.mem_append.1 hmem).elim (hlater x sort)
    fun hmem => hkind _ hmem x sort rfl

theorem settled_modelOf (t : Term) (xs : List String) (s : PipedSession) :
    Settled s.sent (Session.modelOf t xs s).2 := by
  have hstart : Unasked s.sent s := ⟨[], (List.append_nil _).symm, List.not_mem_nil⟩
  have hpush : Keeps (Unasked s.sent) (Session.push : SessionM PipedSession Unit) := by
    refine keeps_unasked (emits_push.mono fun y hy => ?_)
    subst hy
    decide
  have hdeclare : Keeps (Unasked s.sent) (Session.declare xs : SessionM PipedSession Unit) := by
    refine keeps_unasked ((emits_declare xs).mono fun y hy => ?_)
    obtain ⟨x, -, sort, rfl⟩ := hy
    simp [declaration, satQuery, Sexp.app]
  have hassert : Keeps (Unasked s.sent) (Session.assert t : SessionM PipedSession Unit) := by
    refine keeps_unasked ((emits_assert t).mono fun y hy => ?_)
    rcases hy with ⟨x, -, sort, rfl⟩ | rfl
    · simp [declaration, satQuery, Sexp.app]
    · simp [assertion, satQuery, Sexp.app]
  have hcheck : Keeps (Settled s.sent) (Session.checkSat : SessionM PipedSession SatAnswer) := by
    refine keeps_settled (emits_checkSat.mono fun y hy => ?_)
    rcases hy with rfl | rfl <;> simp [satQuery, declaration, Sexp.app]
  have hmodel : Keeps (Settled s.sent) (Session.model xs : SessionM PipedSession Valuation) := by
    refine keeps_settled ((emits_model xs).mono fun y hy => ?_)
    obtain ⟨names, rfl⟩ := hy
    simp [valueQuery, declaration, Sexp.app]
  have hpop : Keeps (Settled s.sent) (Session.pop : SessionM PipedSession Unit) := by
    refine keeps_settled (emits_pop.mono fun y hy => ?_)
    subst hy
    exact closing_ne_declaration
  have hopened := hpush s hstart
  rw [Session.modelOf_eq_inScope, Session.run_inquiry]
  rcases hrun : (Session.push : SessionM PipedSession Unit) s with ⟨e | ⟨⟩, s'⟩
  · rw [hrun] at hopened
    rw [Session.inScope_of_error hrun]
    exact hopened.settled
  · rw [hrun] at hopened
    rw [Session.inScope_of_ok hrun]
    refine hpop _ (Stateful.bind_of_leads (fun _ hs => hs.settled) (hdeclare s' hopened) ?_)
    intro _ s₁ h₁
    refine Stateful.bind_of_leads (fun _ hs => hs.settled) (hassert s₁ h₁) ?_
    exact fun _ s₂ h₂ => hcheck.bind (Session.keeps_lookUp hmodel) s₂ h₂.settled

theorem Settled.ne_declaration (h : Settled before s) {i j : Nat} (hi : before.length ≤ i)
    (hij : i < j) (hasked : s.sent[i]? = some satQuery) (x : String) (sort : VarSort) :
    s.sent[j]? ≠ some (declaration x sort) := by
  obtain ⟨new, later, hsent, hunasked, hlater⟩ := h
  rw [hsent] at hasked ⊢
  have hle : (before ++ new).length ≤ i := by
    by_contra hlt
    rw [List.getElem?_append_left (Nat.lt_of_not_le hlt), List.getElem?_append_right hi] at hasked
    exact hunasked (List.mem_of_getElem? hasked)
  intro hdeclared
  rw [List.getElem?_append_right (Nat.le_of_lt (Nat.lt_of_le_of_lt hle hij))] at hdeclared
  exact hlater x sort (List.mem_of_getElem? hdeclared)

/-! ## Calls -/

def asserted? : Request → Option Term
  | .assert t | .modelOf t _ => some t
  | _ => none

def closes (s : PipedSession) : Request → Bool
  | .pop => s.depth ≠ 0
  | .modelOf _ _ => true
  | _ => false

/-- What a call has to send if it succeeds, apart from declarations. -/
def due : (call : Request) → call.Reply → List Sexp
  | .push, _ => [opening]
  | .pop, _ => [closing]
  | .declare _, _ => []
  | .assert t, _ => [assertion t.toSexp]
  | .checkSat, _ => [satQuery]
  | .model xs, _ => asking xs
  | .modelOf t xs, found =>
    opening :: assertion t.toSexp :: satQuery ::
      ((if found.isSome = true then asking xs else []) ++ [closing])

theorem emits_run (call : Request) :
    Emits sent (fun _ => True) (due call) (call.run : SessionM PipedSession call.Reply) := by
  cases call with
  | push => exact emits_push.mono fun _ _ => trivial
  | pop => exact emits_pop.mono fun _ _ => trivial
  | declare xs => exact (emits_declare xs).mono fun _ _ => trivial
  | assert t => exact (emits_assert t).mono fun _ _ => trivial
  | checkSat => exact emits_checkSat.mono fun _ _ => trivial
  | model xs => exact (emits_model xs).mono fun _ _ => trivial
  | modelOf t xs => exact emits_modelOf t xs

/-- No closing is refused. A solver does not exit on a closing, so it has not exited when a call
that closes a scope is over. -/
def Accepted (s : PipedSession) (call : Request) : Prop :=
  s.closes call = true → (call.run s).2.pipe.peer.alive = true

theorem underway_modelOf (h : Tracks sig accepted s) (t : Term) (xs : List String) :
    Underway sig (accepted ∧ (Session.modelOf t xs s).2.pipe.peer.alive = true) (some t) s.sent
      (Session.modelOf t xs s).2 := by
  have hopened := keeps_push s (h.underway (some t))
  rw [Session.modelOf_eq_inScope]
  rcases hrun : (Session.push : SessionM PipedSession Unit) s with ⟨e | ⟨⟩, s'⟩
  · rw [hrun] at hopened
    rw [Session.inScope_of_error hrun]
    exact ⟨hopened.toTracks.mono And.left, hopened.toSensibleSince⟩
  · rw [hrun] at hopened
    rw [Session.inScope_of_ok hrun]
    have hbody : Keeps (Underway sig accepted (some t) s.sent) (inquiry t xs).run := by
      rw [Session.run_inquiry]
      exact (keeps_declare xs).bind fun _ => (keeps_assert t).bind fun _ =>
        keeps_checkSat.bind (Session.keeps_lookUp (keeps_model xs))
    have hpop := (hbody s' hopened).pop
    exact ⟨hpop.toTracks.mono fun haccepted => ⟨haccepted.1, fun _ => haccepted.2⟩,
      hpop.toSensibleSince⟩

theorem underway_run (h : Tracks sig accepted s) (call : Request) :
    Underway sig (accepted ∧ s.Accepted call) (asserted? call) s.sent (call.run s).2 := by
  -- a call that closes no scope leaves the count as it should be
  have hother : Underway sig accepted (asserted? call) s.sent (call.run s).2 →
      Underway sig (accepted ∧ s.Accepted call) (asserted? call) s.sent (call.run s).2 :=
    fun hafter => ⟨hafter.toTracks.mono And.left, hafter.toSensibleSince⟩
  cases call with
  | push => exact hother (keeps_push s (h.underway none))
  | pop =>
    have hpop := (h.underway none).pop
    exact ⟨hpop.toTracks.mono fun haccepted =>
        ⟨haccepted.1, fun hdepth => haccepted.2 (decide_eq_true hdepth)⟩,
      hpop.toSensibleSince⟩
  | declare xs => exact hother (keeps_declare xs s (h.underway none))
  | assert t => exact hother (keeps_assert t s (h.underway (some t)))
  | checkSat => exact hother (keeps_checkSat s (h.underway none))
  | model xs => exact hother (keeps_model xs s (h.underway none))
  | modelOf t xs =>
    have hmodel := underway_modelOf h t xs
    exact ⟨hmodel.toTracks.mono fun haccepted => ⟨haccepted.1, haccepted.2 rfl⟩,
      hmodel.toSensibleSince⟩

/-! ## The start -/

theorem writes_greeting (l : Launch) :
    Pipe.Writes (fun y => (∃ name value, y = .app "set-option" [.sym name, .sym value]) ∨
      ∃ name, y = .app "set-logic" [.sym name]) (Pipe.greeting l) :=
  fun _ _ hP _ _ hkind => hP.keeps_greeting (fun name value => hkind _ (.inl ⟨name, value, rfl⟩))
    (fun name => hkind _ (.inr ⟨name, rfl⟩)) l

theorem underway_launch {programs : String → Option Peer} {l : Launch}
    {transcript : Option Transcript} (h : launch programs l transcript sig = .ok s) :
    Underway sig True none [] s := by
  rw [launch] at h
  split at h
  · next pipe hlaunch =>
    cases h
    obtain ⟨peer, -, hgreeting⟩ := Pipe.launch_eq_ok hlaunch
    generalize hpipe : ({ peer, transcript := transcript.map (·.append (.comment l.commandLine)) } :
      Pipe) = start at hgreeting
    have hstart : Underway sig True none [] { pipe := start, signature := sig } := by
      subst hpipe
      refine ⟨⟨rfl, ⟨rfl, rfl, rfl⟩, fun x => ?_, fun x sort hmem => ?_, Nat.le_refl 0,
        fun _ => rfl⟩, sensibleSince_self { pipe := { peer, transcript := _ }, signature := sig }⟩
      · constructor
        · intro hx
          cases hx
        · intro hx
          obtain ⟨sort, hmem⟩ := hx
          cases hmem
      · cases hmem
    have hgreeted := hstart.perform (writes_greeting l) (fun y hy => ?_) fun y hy after _ => ?_
    · rw [perform_run, hgreeting] at hgreeted
      exact hgreeted
    · rcases hy with ⟨name, value, rfl⟩ | ⟨name, rfl⟩ <;>
        constructor <;> simp [declaration, opening, closing, Sexp.app]
    · rcases hy with ⟨name, value, rfl⟩ | ⟨name, rfl⟩ <;>
        constructor <;> simp [declaration, assertion, valueQuery, closing, Sexp.app]
  · cases h

/-! ## Runs -/

def after (s : PipedSession) (calls : List Request) : PipedSession :=
  calls.foldl (fun s call => (call.run s).2) s

def Accepts : PipedSession → List Request → Prop
  | _, [] => True
  | s, call :: calls => s.Accepted call ∧ Accepts (call.run s).2 calls

instance decidableAccepted (s : PipedSession) (call : Request) : Decidable (s.Accepted call) :=
  inferInstanceAs (Decidable (s.closes call = true → (call.run s).2.pipe.peer.alive = true))

instance decidableAccepts :
    (s : PipedSession) → (calls : List Request) → Decidable (Accepts s calls)
  | _, [] => inferInstanceAs (Decidable True)
  | s, call :: calls =>
    have := decidableAccepts (call.run s).2 calls
    inferInstanceAs (Decidable (s.Accepted call ∧ Accepts (call.run s).2 calls))

def Sensible (sig : Signature) (stream : List Sexp) : Prop :=
  ∀ i y, stream[i]? = some y → ∃ about, Admissible sig about (stream.take i) y

theorem Sensible.since (h : Sensible sig before) (hsince : SensibleSince sig about before s) :
    Sensible sig s.sent := by
  intro i y hy
  by_cases hi : before.length ≤ i
  · exact ⟨about, hsince.admissible i y hi hy⟩
  · have hlt := Nat.lt_of_not_le hi
    obtain ⟨new, hnew⟩ := hsince.extends_before
    rw [← hnew, List.getElem?_append_left hlt] at hy
    rw [← hnew, List.take_append_of_le_length (Nat.le_of_lt hlt)]
    exact h i y hy

theorem Tracks.run (h : Tracks sig accepted s) (hsensible : Sensible sig s.sent)
    (calls : List Request) :
    Tracks sig (accepted ∧ Accepts s calls) (after s calls) ∧
      Sensible sig (after s calls).sent := by
  induction calls generalizing s accepted with
  | nil => exact ⟨h.mono And.left, hsensible⟩
  | cons call calls ih =>
    have hafter := underway_run h call
    have hrest := ih hafter.toTracks (hsensible.since hafter.toSensibleSince)
    exact ⟨hrest.1.mono fun haccepts => ⟨⟨haccepts.1, haccepts.2.1⟩, haccepts.2.2⟩, hrest.2⟩

/-- A stream of commands that a solver can follow. -/
structure WellFormed (sig : Signature) (stream : List Sexp) : Prop where
  declared_once : ∀ {i j : Nat} {x : String} {sort sort' : VarSort},
    stream[i]? = some (declaration x sort) → stream[j]? = some (declaration x sort') → i = j
  asserted : ∀ {i : Nat} {f : Sexp}, stream[i]? = some (assertion f) → ∃ t : Term, f = t.toSexp ∧
    ∀ x ∈ t.vars, ∃ sort, sig.sortOf? x = some sort ∧ declaration x sort ∈ stream.take i
  asked : ∀ {i : Nat} {names : List String}, stream[i]? = some (valueQuery names) →
    ∀ x ∈ names, ∃ sort, declaration x sort ∈ stream.take i
  closed : ∀ {front : List Sexp}, front <+: stream → front.count closing ≤ front.count opening

theorem Sensible.le_of_declared {stream : List Sexp} (h : Sensible sig stream) {i j : Nat}
    {x : String} {sort sort' : VarSort} (hi : stream[i]? = some (declaration x sort))
    (hj : stream[j]? = some (declaration x sort')) : j ≤ i := by
  by_contra hij
  obtain ⟨about, hadmissible⟩ := h j _ hj
  apply (hadmissible.declares x sort' rfl).2 sort
  apply List.mem_of_getElem? (i := i)
  rwa [List.getElem?_take_of_lt (Nat.lt_of_not_le hij)]

theorem Sensible.count_take {stream : List Sexp} (h : Sensible sig stream) (n : Nat) :
    (stream.take n).count closing ≤ (stream.take n).count opening := by
  induction n with
  | zero => exact Nat.le_refl 0
  | succ n ih =>
    rw [List.take_add_one, List.count_append, List.count_append]
    cases hy : stream[n]? with
    | none => exact ih
    | some y =>
      by_cases hclosing : y = closing
      · obtain ⟨about, hadmissible⟩ := h n y hy
        have hlt := hadmissible.closes hclosing
        rw [hclosing, Option.toList_some, List.count_singleton_self]
        omega
      · rw [Option.toList_some,
          List.count_eq_zero.2 fun hmem => hclosing (List.mem_singleton.1 hmem).symm]
        omega

theorem Sensible.wellFormed {stream : List Sexp} (h : Sensible sig stream) :
    WellFormed sig stream where
  declared_once hi hj := Nat.le_antisymm (h.le_of_declared hj hi) (h.le_of_declared hi hj)
  asserted hf := by
    obtain ⟨about, hadmissible⟩ := h _ _ hf
    obtain ⟨t, -, hformula, hdeclared⟩ := hadmissible.asserts _ rfl
    exact ⟨t, hformula, hdeclared⟩
  asked hnames := by
    obtain ⟨about, hadmissible⟩ := h _ _ hnames
    exact hadmissible.asks _ rfl
  closed hfront := by
    rw [List.prefix_iff_eq_take.1 hfront]
    exact h.count_take _

/-- Whatever is asked of a session, the commands that its solver has got make sense, and the open
scopes are counted as long as no closing is refused. A call adds to the commands, at least what it
is about if it succeeds. What it asserts is its own formula, whose variables were declared. A call
for a model declares nothing once it has asked for the check. -/
theorem commands_wellFormed {programs : String → Option Peer} {l : Launch}
    {transcript : Option Transcript} {s₀ : PipedSession}
    (hlaunch : launch programs l transcript sig = .ok s₀) (calls : List Request) (call : Request)
    (hs : s = after s₀ calls) (hs' : s' = (call.run s).2) :
    WellFormed sig s'.sent ∧
    (Accepts s₀ (calls ++ [call]) →
      s'.sent.count opening = s'.sent.count closing + s'.depth) ∧
    (∃ new, s'.sent = s.sent ++ new ∧
      ∀ r, (call.run s).1 = .ok r → (due call r).Sublist new) ∧
    (∀ xs r, call = .declare xs → (call.run s).1 = .ok r →
      ∀ x ∈ xs, ∃ sort, declaration x sort ∈ s'.sent) ∧
    (∀ i f, s.sent.length ≤ i → s'.sent[i]? = some (assertion f) →
      ∃ t, asserted? call = some t ∧ f = t.toSexp ∧
        ∀ x ∈ t.vars, ∃ sort, sig.sortOf? x = some sort ∧ declaration x sort ∈ s'.sent.take i) ∧
    ∀ t xs, call = .modelOf t xs → ∀ i j x sort, s.sent.length ≤ i → i < j →
      s'.sent[i]? = some satQuery → s'.sent[j]? ≠ some (declaration x sort) := by
  have hstart := underway_launch hlaunch
  have hsensible : Sensible sig s₀.sent := fun i y hy =>
    ⟨none, hstart.admissible i y (Nat.zero_le i) hy⟩
  have htracks : Tracks sig (True ∧ Accepts s₀ calls) s :=
    hs ▸ (hstart.toTracks.run hsensible calls).1
  have hlast : after s₀ (calls ++ [call]) = s' := by
    rw [hs', hs, after, List.foldl_append]
    rfl
  have hall := hstart.toTracks.run hsensible (calls ++ [call])
  rw [hlast] at hall
  have hcall := underway_run htracks call
  subst hs'
  refine ⟨hall.2.wellFormed, fun haccepts => hall.1.depth_eq ⟨trivial, haccepts⟩, ?_, ?_, ?_, ?_⟩
  · obtain ⟨new, hnew, -, hleast⟩ := emits_run call s
    exact ⟨new, hnew, hleast⟩
  · rintro xs r rfl hok
    exact htracks.declared_of_forM hok
  · intro i f hi hf
    exact (hcall.admissible i _ hi hf).asserts f rfl
  · rintro t xs rfl i j x sort hi hij hasked
    exact (settled_modelOf t xs s).ne_declaration hi hij hasked x sort

def numberAndFlag : Signature := SortedMap.ofList [("number", .int), ("flag", .bool)]

def luckySolver : Peer := { script := [.say "sat", .say "((number@0 5) (flag@1 true))"] }

/-- Calls some of which fail: one of the variables to declare has no sort, no scope is open, and the
value of a variable is wanted that was not declared. -/
def clumsyCalls : List Request :=
  [.declare ["number@0", "missing@0"], .pop, .push, .assert (.var "flag@1"), .model ["number@7"],
    .pop]

def positive : Term := .rel .gt (.var "number@0") (.int 0)

/-- The number was declared before a call failed and the flag inside a scope that is closed again.
Neither is declared again for the model. -/
theorem luckySolver_commands :
    ∃ s₀ s', launch (fun _ => some luckySolver) { program := "z3" } none numberAndFlag = .ok s₀ ∧
      s' = ((Request.modelOf positive ["flag@1", "number@0"]).run (after s₀ clumsyCalls)).2 ∧
      s'.sent = s₀.sent ++
        [declaration "number@0" .int, opening, declaration "flag@1" .bool,
          assertion (.sym "flag@1"), closing, opening, assertion positive.toSexp, satQuery,
          valueQuery ["flag@1", "number@0"], closing] ∧
      WellFormed numberAndFlag s'.sent ∧
      s'.sent.count opening = s'.sent.count closing + s'.depth := by
  have hrun : ∃ s₀, launch (fun _ => some luckySolver) { program := "z3" } none numberAndFlag =
        .ok s₀ ∧
      ((Request.modelOf positive ["flag@1", "number@0"]).run (after s₀ clumsyCalls)).2.sent =
        s₀.sent ++
          [declaration "number@0" .int, opening, declaration "flag@1" .bool,
            assertion (.sym "flag@1"), closing, opening, assertion positive.toSexp, satQuery,
            valueQuery ["flag@1", "number@0"], closing] ∧
      Accepts s₀ (clumsyCalls ++ [Request.modelOf positive ["flag@1", "number@0"]]) :=
    ⟨_, rfl, by decide +kernel⟩
  obtain ⟨s₀, hlaunch, hsent, haccepts⟩ := hrun
  obtain ⟨hwellFormed, hdepth, -⟩ := commands_wellFormed hlaunch clumsyCalls
    (.modelOf positive ["flag@1", "number@0"]) rfl rfl
  exact ⟨s₀, _, hlaunch, rfl, hsent, hwellFormed, hdepth haccepts⟩

end LoopInvariant.PipedSession
