import LoopInvariant.Proofs.PipeActions
/-!
# Killing a solver

Kill calls may land before every step of the solver's owner. The first one ends the solver for good:
it is no longer running, and no action brings it back. What is left to see is when the signal is
sent, and what the owner's actions make of the end.
-/

namespace LoopInvariant.Solver

def Event.isWrite : Event → Bool
  | .command _ | .marker => true
  | _ => false

namespace Pipe

open Stateful (Keeps keeps_pure)

variable {p q : Pipe}

/-! ## Runs -/

inductive Op where
  | send (x : Sexp)
  | push
  | pop
  | declare (name sort : String)
  | assert (formula : Sexp)
  | checkSat
  | values (names : List String)
  | info (name : String)
  | save
  | annotate (note : String)
  /-- Give the solver up. -/
  | close

namespace Op

def run : Op → Action Unit
  | .send x => Pipe.send x
  | .push => Pipe.push
  | .pop => Pipe.pop
  | .declare name sort => Pipe.declare name sort
  | .assert formula => Pipe.assert formula
  | .checkSat => (fun _ => ()) <$> Pipe.checkSat
  | .values names => (fun _ => ()) <$> Pipe.values names
  | .info name => (fun _ => ()) <$> Pipe.info name
  | .save => (fun _ => ()) <$> Pipe.save
  | .annotate note => Pipe.annotate note
  | .close => Pipe.close

def needsSolver : Op → Bool
  | .values names => !names.isEmpty
  | .save | .annotate _ | .close => false
  | _ => true

end Op

theorem status_stop (p : Pipe) : p.stop.status = p.status := by
  rw [stop]
  split <;> rfl

theorem status_reap (p : Pipe) : p.reap.status = p.status := by
  rw [reap]
  split <;> rfl

theorem Stable.keeps_close {P : Pipe → Prop} (hP : Stable (·.isWrite = true) P)
    (hstop : ∀ p, P p → P p.stop) (hreap : ∀ p, P p → P p.reap)
    (hgone : ∀ p, P p → P { p with status := .reaped }) : Keeps P close := by
  refine (hP.keeps_write _ rfl).bind fun _ => ?_
  refine (keeps_step hP.interrupt hstop).bind fun _ => ?_
  refine (keeps_step hP.interrupt hreap).bind fun _ => ?_
  exact keeps_step hP.interrupt hgone

/-- A property that queries keep too is kept by all operations that leave the solver its owner's. -/
theorem Stable.keeps_run {P : Pipe → Prop} (hP : Stable (·.isWrite = true) P)
    (hquery : ∀ {α β : Type} {a : Action α} {f : Except SolverError α → Action β},
      Keeps P a → (∀ r, Keeps P (f r)) → Keeps P (query a f))
    {op : Op} (hclose : op = .close → Keeps P close) : Keeps P op.run := by
  cases op with
  | send x => exact hP.keeps_send rfl
  | push => exact hP.keeps_send rfl
  | pop => exact hP.keeps_send rfl
  | declare name sort => exact hP.keeps_send rfl
  | assert formula => exact hP.keeps_send rfl
  | checkSat =>
    rw [Op.run, checkSat_eq]
    refine ((hP.keeps_send rfl).bind fun _ => ?_).map _
    exact hquery (hP.keeps_response rfl) (hP.keeps_interpret rfl rfl)
  | values names =>
    refine Keeps.map ?_ _
    by_cases hnames : names = []
    · rw [hnames]
      exact keeps_pure _
    · rw [values_eq hnames]
      exact hquery (hP.keeps_ask rfl rfl) fun answer p hp => hp
  | info name => exact (hP.keeps_info rfl rfl).map _
  | save => exact hP.keeps_save.map _
  | annotate note => exact hP.keeps_annotate note
  | close => exact hclose rfl

/-- What happens between operations: one of them, or a kill call. -/
inductive Move where
  | kill
  | perform (op : Op)

def Move.after (p : Pipe) : Move → Pipe
  | .kill => p.kill
  | .perform op => (op.run p).2

/-! ## After a kill call -/

theorem stable_ended : Stable (·.isWrite = true) Ended where
  interrupt p hp := by
    obtain ⟨k, hk⟩ := interrupt_of_ended hp
    rw [hk]
    exact hp
  settle _ := ended_settle
  transcript _ _ hp := hp
  peer _ _ _ hp := hp
  written _ _ _ hp := hp
  silence _ _ _ := ended_kill _

/-- The solver has ended, or all of some number of kill calls are still to come. -/
def Untouched (n : Nat) (p : Pipe) : Prop := p.Ended ∨ p.kills.pending = n

theorem Untouched.ended {n : Nat} (h : p.Untouched n) (hlt : p.kills.pending < n) : p.Ended := by
  rcases h with h | h
  · exact h
  · omega

theorem stable_untouched (n : Nat) : Stable (·.isWrite = true) (Untouched n) where
  interrupt p hp := by
    rcases interrupt_cases p with hended | ⟨hstatus, hpending⟩
    · exact .inl hended
    · rw [Untouched, Ended, hstatus, hpending]
      exact hp
  settle p hp := by
    rcases running_or_ended p with hrunning | hended
    · rw [settle_of_running hrunning]
      exact hp
    · exact .inl (ended_settle hended)
  transcript _ _ hp := hp
  peer _ _ _ hp := hp
  written _ _ _ hp := hp
  silence _ _ _ := .inl (ended_kill _)

theorem keeps_ended (op : Op) : Keeps Ended op.run := by
  refine stable_ended.keeps_run (stable_ended.keeps_query fun p b hrunning hp => ?_) fun _ => ?_
  · cases hrunning.symm.trans hp
  · refine stable_ended.keeps_close (fun p hp => ?_) (fun p hp => ?_) fun _ _ => rfl
    · rwa [Ended, status_stop]
    · rwa [Ended, status_reap]

theorem keeps_untouched (n : Nat) (op : Op) : Keeps (Untouched n) op.run := by
  have hP := stable_untouched n
  refine hP.keeps_run (hP.keeps_query fun p b hrunning hp => ?_) fun _ => ?_
  · rcases hp with hp | hp
    · cases hrunning.symm.trans hp
    · exact .inr hp
  · refine hP.keeps_close (fun p hp => ?_) (fun p hp => ?_) fun _ _ => .inl rfl
    · rw [stop]
      split <;> exact hp
    · rw [reap]
      split <;> exact hp

theorem send_of_ended (h : p.Ended) (x : Sexp) :
    send x p = (.error .killed, p.interrupt.settle.2) :=
  Stateful.bind_of_error (settle_of_ended (stable_ended.interrupt p h)).1

/-- Once the solver has ended, an operation that needs it only settles that. -/
theorem run_of_ended (h : p.Ended) {op : Op} (hop : op.needsSolver = true) :
    op.run p = (.error .killed, p.interrupt.settle.2) := by
  cases op with
  | send x => exact send_of_ended h x
  | push => exact send_of_ended h _
  | pop => exact send_of_ended h _
  | declare name sort => exact send_of_ended h _
  | assert formula => exact send_of_ended h _
  | checkSat =>
    rw [Op.run, Stateful.map_run, checkSat_eq, Stateful.bind_of_error (send_of_ended h _)]
    rfl
  | values names =>
    have hnames : names ≠ [] := by
      rintro rfl
      cases hop
    have hquery := setInQuery_of_ended (stable_ended.interrupt p h) true
    rw [Op.run, Stateful.map_run, values_eq hnames, query, Stateful.bind_of_error hquery]
    rfl
  | info name =>
    rw [Op.run, Stateful.map_run, info, ask,
      Stateful.bind_of_error (Stateful.bind_of_error (send_of_ended h _))]
    rfl
  | save => cases hop
  | annotate note => cases hop
  | close => cases hop

theorem settle_frame (p : Pipe) :
    p.settle.2.transcript = p.transcript ∧ p.settle.2.peer.received = p.peer.received ∧
      ∃ ends, p.settle.2.history = ends ++ p.history ∧ ∀ e ∈ ends, e = .stop ∨ e = .reap := by
  rw [settle]
  split
  · exact ⟨rfl, rfl, [], rfl, by simp⟩
  · exact ⟨rfl, rfl, [.reap, .stop], rfl, by simp⟩
  · exact ⟨rfl, rfl, [.reap], rfl, by simp⟩
  · exact ⟨rfl, rfl, [], rfl, by simp⟩

/-- A kill call lands while an action runs, or before the step after it. -/
def KilledDuring {α : Type} (a : Action α) (p : Pipe) : Prop :=
  (a p).2.interrupt.kills.pending < p.kills.pending

/-- Whatever was answered inside a query, it fails if a kill call has landed meanwhile. -/
theorem query_of_killedDuring {α β : Type} {a : Action α}
    (ha : ∀ n, Keeps (Untouched n) a) (f : Except SolverError α → Action β)
    (hquery : setInQuery true p = (.ok (), q)) (hkilled : KilledDuring a q) :
    (query a f p).1 = .error .killed := by
  have hlater : (a q).2.interrupt.Untouched q.kills.pending :=
    (stable_untouched _).interrupt _ (ha _ q (.inr rfl))
  have hattempt : attempt a q = (.ok (a q).1, (a q).2) := rfl
  rw [query, Stateful.bind_of_ok hquery, Stateful.bind_of_ok hattempt,
    Stateful.bind_of_error (setInQuery_of_ended (hlater.ended hkilled) false)]

/-! ## Signals -/

/-- The solver is signalled once at most, never after it was waited for, and then it is gone. -/
structure Lawful (p : Pipe) : Prop where
  once : p.history.count .signal ≤ 1
  order : ∀ later earlier, p.history = later ++ .reap :: earlier → .signal ∉ later
  signalled : .signal ∈ p.history → p.status = .unreaped ∨ p.status = .reaped

theorem Lawful.event (h : p.Lawful) {e : Event} (he : e ≠ .signal) :
    Lawful { p with history := e :: p.history } where
  once := by
    rw [List.count_cons_of_ne he]
    exact h.once
  order := by
    intro later earlier heq hmem
    cases later with
    | nil => cases hmem
    | cons first later =>
      rw [List.cons_append, List.cons.injEq] at heq
      rcases List.mem_cons.1 hmem with hfirst | hmem
      · exact he (heq.1.trans hfirst.symm)
      · exact h.order later earlier heq.2 hmem
  signalled hmem := h.signalled ((List.mem_cons.1 hmem).resolve_left he.symm)

theorem Lawful.kill (h : p.Lawful) (hquery : p.status = .running true → .reap ∉ p.history) :
    p.kill.Lawful := by
  rw [Pipe.kill]
  split
  · next hs =>
    have hnone : .signal ∉ p.history := by
      intro hmem
      rcases h.signalled hmem with hstatus | hstatus
      · cases hs.symm.trans hstatus
      · cases hs.symm.trans hstatus
    constructor
    · have hcount := List.count_eq_zero.2 hnone
      rw [List.count_cons_self]
      omega
    · intro later earlier heq
      cases later with
      | nil => exact List.not_mem_nil
      | cons first later =>
        rw [List.cons_append, List.cons.injEq] at heq
        have hreap : .reap ∈ p.history := by simp [heq.2]
        exact absurd hreap (hquery hs)
    · exact fun _ => .inl rfl
  · next hs =>
    refine ⟨h.once, h.order, fun hmem => ?_⟩
    rcases h.signalled hmem with hstatus | hstatus
    · cases hs.symm.trans hstatus
    · cases hs.symm.trans hstatus
  · exact h

structure Orderly (p : Pipe) : Prop extends Lawful p where
  gone : .reap ∈ p.history → p.status = .reaped

theorem Orderly.kill (h : p.Orderly) : p.kill.Orderly := by
  refine ⟨h.toLawful.kill fun hs hreap => ?_, fun hreap => ?_⟩
  · cases hs.symm.trans (h.gone hreap)
  · have hreap : .reap ∈ p.history := by
      rw [Pipe.kill] at hreap
      split at hreap
      · simpa using hreap
      · exact hreap
      · exact hreap
    have hstatus := h.gone hreap
    have hended : p.Ended := by
      rw [Ended, hstatus]
      rfl
    rw [kill_of_ended hended, hstatus]

theorem Orderly.settle (h : p.Orderly) : p.settle.2.Orderly := by
  rw [Pipe.settle]
  split
  · exact h
  · have hevents := (h.toLawful.event (e := .stop) (by decide)).event (e := .reap) (by decide)
    exact ⟨⟨hevents.once, hevents.order, fun _ => .inr rfl⟩, fun _ => rfl⟩
  · have hevents := h.toLawful.event (e := .reap) (by decide)
    exact ⟨⟨hevents.once, hevents.order, fun _ => .inr rfl⟩, fun _ => rfl⟩
  · exact h

theorem Orderly.event (h : p.Orderly) {e : Event} (he : e ≠ .signal) (he' : e ≠ .reap) :
    Orderly { p with history := e :: p.history } :=
  ⟨h.toLawful.event he, fun hmem => h.gone ((List.mem_cons.1 hmem).resolve_left he'.symm)⟩

theorem stable_orderly : Stable (·.isWrite = true) Orderly where
  interrupt _ := interrupt_induction (fun _ hp => hp.kill) fun _ _ hp =>
    ⟨⟨hp.once, hp.order, hp.signalled⟩, hp.gone⟩
  settle _ hp := hp.settle
  transcript _ _ hp := ⟨⟨hp.once, hp.order, hp.signalled⟩, hp.gone⟩
  peer _ _ _ hp := ⟨⟨hp.once, hp.order, hp.signalled⟩, hp.gone⟩
  written p e he hp := by
    apply hp.event
    · rintro rfl
      cases he
    · rintro rfl
      cases he
  silence p _ hp := Orderly.kill ⟨⟨hp.once, hp.order, hp.signalled⟩, hp.gone⟩

def Idle (p : Pipe) : Prop := p.status ≠ .running true

theorem Ended.idle (h : p.Ended) : p.Idle := by
  intro hs
  cases (congrArg Status.isRunning hs).symm.trans h

theorem stable_idle : Stable (·.isWrite = true) Idle where
  interrupt p hp := by
    rcases interrupt_cases p with hended | ⟨hstatus, -⟩
    · exact hended.idle
    · rw [Idle, hstatus]
      exact hp
  settle p hp := by
    rcases running_or_ended p with hrunning | hended
    · rw [settle_of_running hrunning]
      exact hp
    · exact (ended_settle hended).idle
  transcript _ _ hp := hp
  peer _ _ _ hp := hp
  written _ _ _ hp := hp
  silence _ _ _ := (ended_kill _).idle

theorem idle_setInQuery_false (p : Pipe) : (setInQuery false p).2.Idle := by
  rcases running_or_ended p.interrupt with hrunning | hended
  · rw [setInQuery_of_running hrunning]
    intro hs
    cases hs
  · rw [setInQuery_of_ended hended]
    exact (ended_settle hended).idle

/-- A query is over when what is made of its result begins. -/
theorem keeps_idle_query {α β : Type} (a : Action α) {f : Except SolverError α → Action β}
    (hf : ∀ r, Keeps Idle (f r)) : Keeps Idle (query a f) := by
  intro p _
  rcases running_or_ended p.interrupt with hrunning | hended
  · rw [query, Stateful.bind_of_ok (setInQuery_of_running hrunning true)]
    generalize { p.interrupt with status := .running true } = q
    have hattempt : attempt a q = (.ok (a q).1, (a q).2) := rfl
    rw [Stateful.bind_of_ok hattempt]
    exact Stateful.bind_of_leads (fun _ hp => hp) (idle_setInQuery_false _) fun _ => hf _
  · rw [query, Stateful.bind_of_error (setInQuery_of_ended hended true)]
    exact (ended_settle hended).idle

theorem keeps_idle (op : Op) : Keeps Idle op.run := by
  refine stable_idle.keeps_run (fun _ hf => keeps_idle_query _ hf) fun _ => ?_
  refine stable_idle.keeps_close (fun p hp => ?_) (fun p hp => ?_) fun p hp hs => ?_
  · rwa [Idle, status_stop]
  · rwa [Idle, status_reap]
  · cases hs

/-- Between operations a solver is in order, and no query is under way. -/
structure Calm (p : Pipe) : Prop extends Orderly p where
  idle : p.Idle

theorem Calm.interrupt (h : p.Calm) : p.interrupt.Calm :=
  ⟨stable_orderly.interrupt p h.toOrderly, stable_idle.interrupt p h.idle⟩

theorem Calm.stop (h : p.Calm) : p.stop.Calm := by
  refine ⟨?_, ?_⟩
  · rw [Pipe.stop]
    split
    · exact h.toOrderly
    · have hevent := h.toOrderly.event (e := .stop) (by decide) (by decide)
      exact ⟨⟨hevent.once, hevent.order, hevent.signalled⟩, hevent.gone⟩
  · rw [Idle, status_stop]
    exact h.idle

theorem write_ok (text : String) (event : Event) (p : Pipe) :
    ∃ r, write text event p = (.ok r, (write text event p).2) := by
  rw [write, step]
  split
  · exact ⟨_, rfl⟩
  · exact ⟨_, rfl⟩

/-- Between the wait and the mark a solver counts as running though it was waited for. A kill call
that lands there only marks it, since no query is under way. -/
theorem Calm.close (h : p.Calm) : (close p).2.Calm := by
  have hwritten : (write "(exit)" (.command (.app "exit" [])) p).2.Calm :=
    ⟨stable_orderly.keeps_write _ rfl p h.toOrderly, stable_idle.keeps_write _ rfl p h.idle⟩
  obtain ⟨r, hwrite⟩ := write_ok "(exit)" (.command (.app "exit" [])) p
  rw [Pipe.close, Stateful.bind_of_ok hwrite]
  generalize (write "(exit)" (.command (.app "exit" [])) p).2 = q at hwritten
  have hstopped := hwritten.interrupt.stop.interrupt
  have hreaped : q.interrupt.stop.interrupt.reap.Lawful ∧ q.interrupt.stop.interrupt.reap.Idle := by
    refine ⟨?_, ?_⟩
    · rw [reap]
      split
      · exact hstopped.toLawful
      · exact hstopped.toLawful.event (by decide)
    · rw [Idle, status_reap]
      exact hstopped.idle
  have hlast := interrupt_induction (P := fun p => p.Lawful ∧ p.Idle)
    (fun p hp => ⟨hp.1.kill fun hs => absurd hs hp.2, (ended_kill p).idle⟩)
    (fun p k hp => ⟨⟨hp.1.once, hp.1.order, hp.1.signalled⟩, hp.2⟩) hreaped
  show Calm { q.interrupt.stop.interrupt.reap.interrupt with status := .reaped }
  refine ⟨⟨⟨hlast.1.once, hlast.1.order, fun _ => .inr rfl⟩, fun _ => rfl⟩, fun hs => ?_⟩
  cases hs

theorem Calm.move (h : p.Calm) (m : Move) : (m.after p).Calm := by
  cases m with
  | kill => exact ⟨h.toOrderly.kill, (ended_kill p).idle⟩
  | perform op =>
    by_cases hclose : op = .close
    · rw [hclose]
      exact h.close
    · refine ⟨?_, keeps_idle op p h.idle⟩
      refine stable_orderly.keeps_run (stable_orderly.keeps_query fun q b hrunning hq => ?_)
        (fun heq => absurd heq hclose) p h.toOrderly
      have hreap : .reap ∉ q.history := by
        intro hmem
        rw [hq.gone hmem] at hrunning
        cases hrunning
      have hsignal : .signal ∉ q.history := by
        intro hmem
        rcases hq.signalled hmem with hs | hs
        · rw [hs] at hrunning
          cases hrunning
        · rw [hs] at hrunning
          cases hrunning
      exact ⟨⟨hq.once, hq.order, fun hmem => absurd hmem hsignal⟩, fun hmem => absurd hmem hreap⟩

theorem calm_of_launch {programs : String → Option Peer} {l : Launch}
    {transcript : Option Transcript} (h : launch programs l transcript = .ok p) : p.Calm := by
  obtain ⟨peer, -, hgreeting⟩ := launch_eq_ok h
  let start : Pipe := { peer, transcript := transcript.map (·.append (.comment l.commandLine)) }
  have hstart : start.Orderly := by
    refine ⟨⟨Nat.zero_le 1, fun later earlier heq => ?_, fun hmem => ?_⟩, fun hmem => ?_⟩
    · simp [start] at heq
    · cases hmem
    · cases hmem
  have horderly := stable_orderly.keeps_greeting (fun _ _ => rfl) (fun _ => rfl) l start hstart
  have hidle := stable_idle.keeps_greeting (fun _ _ => rfl) (fun _ => rfl) l start
    fun hs => by cases hs
  rw [hgreeting] at horderly hidle
  exact ⟨horderly, hidle⟩

/-! ## All together -/

theorem calm_moves (h : p.Calm) (moves : List Move) : (moves.foldl Move.after p).Calm := by
  induction moves generalizing p with
  | nil => exact h
  | cons m moves ih => exact ih (h.move m)

theorem ended_moves (h : p.Ended) (moves : List Move) : (moves.foldl Move.after p).Ended := by
  induction moves generalizing p with
  | nil => exact h
  | cons m moves ih =>
    refine ih ?_
    cases m with
    | kill => exact ended_kill p
    | perform op => exact keeps_ended op p h

theorem untouched_moves {n : Nat} (h : p.Untouched n) (moves : List Move) :
    (moves.foldl Move.after p).Untouched n := by
  induction moves generalizing p with
  | nil => exact h
  | cons m moves ih =>
    refine ih ?_
    cases m with
    | kill => exact .inl (ended_kill p)
    | perform op => exact keeps_untouched n op p h

theorem ended_of_kill_mem {moves : List Move} (hmem : .kill ∈ moves) (p : Pipe) :
    (moves.foldl Move.after p).Ended := by
  obtain ⟨earlier, later, rfl⟩ := List.append_of_mem hmem
  rw [List.foldl_append, List.foldl_cons]
  exact ended_moves (ended_kill _) later

end Pipe

open Pipe

/-- A solver that is killed stays killed, wherever kill calls land. It is signalled at most once and
never after it was waited for. When a kill call has landed, an operation that needs the solver fails
for that reason, writes nothing and records nothing. And a query fails for that reason if the call
lands while it is under way, whatever the solver has answered. -/
theorem killed_stays_killed {programs : String → Option Peer} {l : Launch}
    {transcript : Option Transcript} {p₀ : Pipe} (hlaunch : launch programs l transcript = .ok p₀)
    (kills : Kills) (moves : List Move) :
    let p := moves.foldl Move.after { p₀ with kills }
    (p.history.count .signal ≤ 1 ∧
      ∀ later earlier, p.history = later ++ .reap :: earlier → .signal ∉ later) ∧
    (.kill ∈ moves ∨ p.kills.pending < kills.pending → ∀ op : Op, op.needsSolver = true →
      (op.run p).1 = .error .killed ∧
      (op.run p).2.transcript = p.transcript ∧ (op.run p).2.peer.received = p.peer.received ∧
      ∃ ends, (op.run p).2.history = ends ++ p.history ∧ ∀ e ∈ ends, e = .stop ∨ e = .reap) ∧
    (∀ p₁ p₂, send (.app "check-sat" []) p = (.ok (), p₁) → setInQuery true p₁ = (.ok (), p₂) →
      KilledDuring response p₂ → (checkSat p).1 = .error .killed) ∧
    ∀ names p₁, names ≠ [] → setInQuery true p = (.ok (), p₁) →
      KilledDuring (ask (.app "get-value" [.list (names.map .sym)])) p₁ →
      (values names p).1 = .error .killed := by
  intro p
  have hlaunched := calm_of_launch hlaunch
  have hstart : Calm { p₀ with kills } :=
    ⟨⟨⟨hlaunched.once, hlaunched.order, hlaunched.signalled⟩, hlaunched.gone⟩, hlaunched.idle⟩
  have hcalm : p.Calm := calm_moves hstart moves
  refine ⟨⟨hcalm.once, hcalm.order⟩, fun hlanded op hop => ?_, fun p₁ p₂ hsend hquery hkilled => ?_,
    fun names p₁ hnames hquery hkilled => ?_⟩
  · have hended : p.Ended := by
      rcases hlanded with hmem | hlt
      · exact ended_of_kill_mem hmem _
      · exact (untouched_moves (.inr rfl) moves).ended hlt
    obtain ⟨k, hk⟩ := interrupt_of_ended hended
    obtain ⟨htranscript, hreceived, hhistory⟩ := settle_frame { p with kills := k }
    rw [run_of_ended hended hop, hk]
    exact ⟨rfl, htranscript, hreceived, hhistory⟩
  · rw [checkSat_eq, Stateful.bind_of_ok hsend]
    exact query_of_killedDuring (fun n => (stable_untouched n).keeps_response rfl) _ hquery hkilled
  · rw [values_eq hnames]
    exact query_of_killedDuring (fun n => (stable_untouched n).keeps_ask rfl rfl) _ hquery hkilled

def readySolver : Peer := { script := [.say "sat"] }

/-- A kill call that lands when the answer to the first query was read. -/
def lateKill : Kills := { before := [0, 0, 0, 0, 0, 0, 1] }

/-- The answer was read and is dropped, and the solver is closed to what comes next. -/
theorem readySolver_killed :
    ∃ p₀ p₁ p₂, launch (fun _ => some readySolver) { program := "z3" } (some {}) = .ok p₀ ∧
      send (.app "check-sat" []) { p₀ with kills := lateKill } = (.ok (), p₁) ∧
      setInQuery true p₁ = (.ok (), p₂) ∧ (response p₂).1 = .ok "sat" ∧
      (checkSat { p₀ with kills := lateKill }).1 = .error .killed ∧
      (Op.push.run (Op.checkSat.run { p₀ with kills := lateKill }).2).1 = .error .killed := by
  have hrun : ∃ p₀, launch (fun _ => some readySolver) { program := "z3" } (some {}) = .ok p₀ ∧
      (send (.app "check-sat" []) { p₀ with kills := lateKill }).1 = .ok () ∧
      (setInQuery true (send (.app "check-sat" []) { p₀ with kills := lateKill }).2).1 = .ok () ∧
      (let p₂ := (setInQuery true (send (.app "check-sat" []) { p₀ with kills := lateKill }).2).2
       (response p₂).1 = .ok "sat" ∧
        (response p₂).2.interrupt.kills.pending < p₂.kills.pending) ∧
      (Op.checkSat.run { p₀ with kills := lateKill }).2.kills.pending < lateKill.pending :=
    ⟨_, rfl, by decide +kernel⟩
  obtain ⟨p₀, hlaunch, hsend, hquery, ⟨hanswer, hkilled⟩, hlanded⟩ := hrun
  have hsend : send (.app "check-sat" []) { p₀ with kills := lateKill } = (.ok (), _) :=
    Prod.ext hsend rfl
  have hquery : setInQuery true (send (.app "check-sat" []) { p₀ with kills := lateKill }).2 =
      (.ok (), _) := Prod.ext hquery rfl
  obtain ⟨-, -, hcheck, -⟩ := killed_stays_killed hlaunch lateKill []
  obtain ⟨-, hafter, -, -⟩ := killed_stays_killed hlaunch lateKill [.perform .checkSat]
  exact ⟨p₀, _, _, hlaunch, hsend, hquery, hanswer, hcheck _ _ hsend hquery hkilled,
    (hafter (.inr hlanded) .push rfl).1⟩

end LoopInvariant.Solver
