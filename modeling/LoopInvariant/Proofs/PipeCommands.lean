import LoopInvariant.Proofs.PipeActions
/-!
# The commands that a solver gets

The history of a solver tells which commands were written to it. Every action adds commands of a few
kinds, and if it succeeds its own is among them. If nobody kills the solver, a command is written
unless the solver has exited.
-/

namespace LoopInvariant.Solver

def Event.command? : Event → Option Sexp
  | .command x => some x
  | _ => none

namespace Pipe

open Stateful (Keeps Emits emits_nothing)

variable {α : Type} {p : Pipe} {kind : Sexp → Prop} {least : α → List Sexp} {a : Action α}

/-! ## Commands written -/

def commands (p : Pipe) : List Sexp := p.history.reverse.filterMap Event.command?

theorem commands_event (p : Pipe) (e : Event) :
    commands { p with history := e :: p.history } = p.commands ++ e.command?.toList := by
  cases e <;> simp [commands, Event.command?]

theorem commands_kill (p : Pipe) : p.kill.commands = p.commands := by
  rw [kill]
  split
  · exact (commands_event p .signal).trans (List.append_nil _)
  · rfl
  · rfl

theorem commands_settle (p : Pipe) : p.settle.2.commands = p.commands := by
  rw [settle]
  split
  · rfl
  · simp [commands, Event.command?]
  · simp [commands, Event.command?]
  · rfl

theorem commands_interrupt (p : Pipe) : p.interrupt.commands = p.commands :=
  interrupt_induction (P := fun q => q.commands = p.commands)
    (fun q hq => (commands_kill q).trans hq) (fun _ _ hq => hq) rfl

/-- Since then only commands of some kind were written. -/
def Extends (kind : Sexp → Prop) (before : List Sexp) (p : Pipe) : Prop :=
  ∃ new, p.commands = before ++ new ∧ ∀ y ∈ new, kind y

theorem Extends.of_eq {before : List Sexp} {q : Pipe} (hp : Extends kind before p)
    (heq : q.commands = p.commands) : Extends kind before q := by
  rwa [Extends, heq]

theorem stable_extends (kind : Sexp → Prop) (before : List Sexp) :
    Stable (fun e => ∀ y, e.command? = some y → kind y) (Extends kind before) where
  interrupt p hp := hp.of_eq (commands_interrupt p)
  settle p hp := hp.of_eq (commands_settle p)
  transcript _ _ hp := hp
  peer _ _ _ hp := hp
  written p e he hp := by
    obtain ⟨new, hnew, hkind⟩ := hp
    refine ⟨new ++ e.command?.toList, ?_, fun y hy => ?_⟩
    · rw [commands_event, hnew, List.append_assoc]
    · rcases List.mem_append.1 hy with hy | hy
      · exact hkind y hy
      · exact he y (Option.mem_toList.1 hy)
  silence p _ hp := Extends.of_eq hp (commands_kill _)

/-! ## What actions write -/

def Writes (kind : Sexp → Prop) (a : Action α) : Prop :=
  ∀ may P, Stable may P →
    (∀ p b, p.status.isRunning = true → P p → P { p with status := .running b }) →
    may .marker → (∀ y, kind y → may (.command y)) → Keeps P a

theorem writes_send (x : Sexp) : Writes (· = x) (send x) :=
  fun _ _ hP _ _ hkind => hP.keeps_send (hkind x rfl)

theorem writes_reading : Writes kind reading :=
  fun _ _ hP _ hmarker _ => hP.keeps_reading hmarker

theorem writes_setInQuery (inQuery : Bool) : Writes kind (setInQuery inQuery) :=
  fun _ _ hP hquery _ _ => hP.keeps_setInQuery hquery inQuery

theorem writes_verdict :
    Writes (· = .app "get-info" [.sym ":reason-unknown"]) (query response interpret) := by
  intro may P hP hquery hmarker hkind
  refine hP.keeps_query hquery (hP.keeps_response hmarker) ?_
  exact hP.keeps_interpret hmarker (hkind _ rfl)

theorem writes_checkSat :
    Writes (fun y => y = .app "check-sat" [] ∨ y = .app "get-info" [.sym ":reason-unknown"])
      checkSat := by
  intro may P hP hquery hmarker hkind
  rw [checkSat_eq]
  refine (hP.keeps_send (hkind _ (.inl rfl))).bind fun _ => ?_
  exact writes_verdict may P hP hquery hmarker fun y hy => hkind y (.inr hy)

theorem writes_values (names : List String) :
    Writes (· = .app "get-value" [.list (names.map .sym)]) (values names) := by
  intro may P hP hquery hmarker hkind
  by_cases hnames : names = []
  · rw [hnames]
    exact Stateful.keeps_pure _
  · rw [values_eq hnames]
    exact hP.keeps_query hquery (hP.keeps_ask hmarker (hkind _ rfl)) fun answer p hp => hp

theorem Writes.emits (ha : Writes kind a) : Emits commands kind (fun _ => []) a := by
  intro p
  have hextends : Extends kind p.commands (a p).2 := by
    refine ha _ _ (stable_extends kind p.commands) (fun _ _ _ hp => hp) (fun y hy => ?_)
      (fun y hy z hz => ?_) p ⟨[], (List.append_nil _).symm, fun y hy => ?_⟩
    · cases hy
    · cases hz
      exact hy
    · cases hy
  obtain ⟨new, hnew, hkind⟩ := hextends
  exact ⟨new, hnew, hkind, fun v _ => List.nil_sublist new⟩

/-! ## Success -/

theorem emits_attempt (ha : Emits commands kind least a) :
    Emits commands kind (fun r => r.toOption.elim [] least) (attempt a) := by
  intro p
  obtain ⟨new, hnew, hkind, hleast⟩ := ha p
  refine ⟨new, hnew, hkind, fun r hr => ?_⟩
  have hresult : (a p).1 = r := Except.ok.inj hr
  cases r with
  | error e => exact List.nil_sublist new
  | ok v => exact hleast v hresult

theorem emits_write (text : String) (x : Sexp) :
    Emits commands (· = x) (fun r => r.toOption.elim [] fun _ => [x])
      (write text (.command x)) := by
  intro p
  rw [write, step]
  split
  · refine ⟨[x], ?_, fun y hy => List.mem_singleton.1 hy, fun r hr => ?_⟩
    · rw [← commands_interrupt p]
      exact commands_event p.interrupt (.command x)
    · rw [← Except.ok.inj hr]
      exact List.Sublist.refl [x]
  · refine ⟨[], ?_, fun y hy => ?_, fun r hr => ?_⟩
    · rw [← commands_interrupt p, List.append_nil]
    · cases hy
    · rw [← Except.ok.inj hr]
      exact List.Sublist.refl []

theorem emits_send (x : Sexp) : Emits commands (· = x) (fun _ => [x]) (send x) := by
  have hcheck : Writes (· = x) checkKilled := fun _ _ hP _ _ _ => hP.keeps_checkKilled
  have hrecord : Writes (· = x) (record x) := fun _ _ hP _ _ _ => hP.keeps_record x
  refine hcheck.emits.bind (d := fun _ _ => [x]) (fun _ => ?_) fun _ _ => List.Sublist.refl _
  refine hrecord.emits.bind (d := fun _ _ => [x]) (fun _ => ?_) fun _ _ => List.Sublist.refl _
  refine (emits_write x.print x).bind (d := fun r _ => r.toOption.elim [x] fun _ => [])
    (fun r => ?_) fun r _ => ?_
  · cases r with
    | ok => exact emits_nothing (fun _ => rfl) fun _ _ _ => rfl
    | error e =>
      have hblame : Writes (· = x) (blame e : Action Unit) := fun _ _ hP _ _ _ => hP.keeps_blame e
      intro p
      obtain ⟨new, hnew, hkind, -⟩ := hblame.emits p
      refine ⟨new, hnew, hkind, fun v hv => ?_⟩
      obtain ⟨_, -, hthrow⟩ := Stateful.exists_of_bind hv
      cases hthrow
  · cases r <;> exact List.Sublist.refl [x]

theorem emits_checkSat :
    Emits commands (fun y => y = .app "check-sat" [] ∨ y = .app "get-info" [.sym ":reason-unknown"])
      (fun _ => [.app "check-sat" []]) checkSat := by
  rw [checkSat_eq]
  refine Emits.bind ((emits_send _).mono fun y hy => .inl hy) (fun _ => ?_)
    fun _ _ => List.Sublist.refl _
  exact writes_verdict.emits.mono fun y hy => .inr hy

theorem emits_values {names : List String} (hnames : names ≠ []) :
    Emits commands (· = .app "get-value" [.list (names.map .sym)])
      (fun _ => [.app "get-value" [.list (names.map .sym)]]) (values names) := by
  rw [values_eq hnames]
  generalize Sexp.app "get-value" [.list (names.map .sym)] = x
  have hask : Emits commands (· = x) (fun _ => [x]) (ask x) := by
    rw [ask_eq]
    exact (emits_send x).bind (fun _ => writes_reading.emits) fun _ _ => List.Sublist.refl _
  refine (writes_setInQuery true).emits.bind (d := fun _ _ => [x]) (fun _ => ?_)
    fun _ _ => List.Sublist.refl _
  refine (emits_attempt hask).bind (d := fun r _ => r.toOption.elim [x] fun _ => [])
    (fun r => ?_) fun r _ => ?_
  · refine (writes_setInQuery false).emits.bind (fun _ => ?_) fun _ _ => List.Sublist.refl _
    refine emits_nothing (fun _ => rfl) fun p v hv => ?_
    have hr : r = .ok v := hv
    rw [hr]
    rfl
  · cases r <;> exact List.Sublist.refl [x]

/-! ## A solver that nobody kills -/

/-- The solver runs, and no kill call is to come. -/
structure Quiet (p : Pipe) : Prop where
  running : p.status.isRunning = true
  before_eq : p.kills.before = []
  silent_eq : p.kills.whenSilent = false

theorem Quiet.interrupt (h : p.Quiet) : p.interrupt = p := by
  rw [Pipe.interrupt, h.before_eq]

theorem Quiet.settle (h : p.Quiet) : p.settle = (.ok (), p) := settle_of_running h.running

theorem Quiet.congr {q : Pipe} (h : p.Quiet) (hstatus : q.status = p.status)
    (hkills : q.kills = p.kills) : q.Quiet :=
  ⟨hstatus ▸ h.running, hkills ▸ h.before_eq, hkills ▸ h.silent_eq⟩

theorem stable_quiet (may : Event → Prop) : Stable may Quiet where
  interrupt p hp := by rwa [hp.interrupt]
  settle p hp := by rwa [hp.settle]
  transcript _ _ hp := hp.congr rfl rfl
  peer _ _ _ hp := hp.congr rfl rfl
  written _ _ _ hp := hp.congr rfl rfl
  silence p hsilent hp := by
    rw [hp.silent_eq] at hsilent
    cases hsilent

theorem Writes.quiet (ha : Writes kind a) (hp : p.Quiet) : (a p).2.Quiet :=
  ha _ _ (stable_quiet fun _ => True) (fun _ _ _ hq => ⟨rfl, hq.before_eq, hq.silent_eq⟩) trivial
    (fun _ _ => trivial) p hp

theorem Quiet.checkKilled (h : p.Quiet) : checkKilled p = (.ok (), p) := by
  rw [Pipe.checkKilled, step, h.interrupt, h.settle]

theorem Quiet.record (h : p.Quiet) (x : Sexp) :
    record x p = (.ok (), { p with transcript := p.transcript.map (·.append x) }) := by
  rw [Pipe.record, step, h.interrupt]

theorem Quiet.write (h : p.Quiet) (halive : p.peer.alive = true) (text : String) (event : Event) :
    write text event p =
      (.ok (.ok ()), { p with peer := p.peer.read text, history := event :: p.history }) := by
  rw [Pipe.write, step, h.interrupt, if_pos halive]

theorem Quiet.send (h : p.Quiet) (halive : p.peer.alive = true) (x : Sexp) :
    send x p = (.ok (), { p with transcript := p.transcript.map (·.append x)
                                 peer := p.peer.read x.print
                                 history := .command x :: p.history }) := by
  have hrecorded : Quiet { p with transcript := p.transcript.map (·.append x) } :=
    h.congr rfl rfl
  rw [Pipe.send, Stateful.bind_of_ok h.checkKilled, Stateful.bind_of_ok (h.record x),
    Stateful.bind_of_ok (hrecorded.write halive _ _)]
  rfl

theorem send_of_quiet (h : p.Quiet) (x : Sexp) :
    (∃ q, send x p = (.ok (), q) ∧ q.Quiet ∧ q.commands = p.commands ++ [x]) ∨
      ∃ e q, send x p = (.error e, q) ∧ q.Quiet ∧ q.commands = p.commands ∧
        q.peer.alive = false := by
  by_cases halive : p.peer.alive = true
  · exact .inl ⟨_, h.send halive x, h.congr rfl rfl, commands_event p _⟩
  · let recorded : Pipe := { p with transcript := p.transcript.map (·.append x) }
    have hrecorded : recorded.Quiet := h.congr rfl rfl
    have hwrite : Pipe.write x.print (.command x) recorded =
        (.ok (.error brokenPipe), recorded) := by
      rw [Pipe.write, step, hrecorded.interrupt, if_neg halive]
    rw [Pipe.send, Stateful.bind_of_ok h.checkKilled, Stateful.bind_of_ok (h.record x),
      Stateful.bind_of_ok hwrite]
    refine .inr ⟨brokenPipe, recorded, ?_, hrecorded, rfl, Bool.eq_false_iff.2 halive⟩
    exact Stateful.bind_of_ok hrecorded.checkKilled

end Pipe

end LoopInvariant.Solver
