import LoopInvariant.Proofs.Stateful
import LoopInvariant.Solver.Pipe
/-!
# What actions on a solver keep

Every action of a solver's owner is made of a few steps, with kill calls before each of them. A
property that the steps keep is kept by the actions. What an action may write is given apart, since
most properties depend on it.
-/

namespace LoopInvariant.Solver

def Status.isRunning : Status → Bool
  | .running _ => true
  | _ => false

def Kills.pending (k : Kills) : Nat := k.before.foldr (· + ·) 0 + k.whenSilent.toNat

namespace Pipe

open Stateful (Keeps keeps_pure keeps_throw)

variable {p q : Pipe}

theorem keeps_attempt {α : Type} {P : Pipe → Prop} {a : Action α} (ha : Keeps P a) :
    Keeps P (attempt a) := ha

theorem keeps_step {α : Type} {P : Pipe → Prop} {f : Pipe → Except SolverError α × Pipe}
    (hinterrupt : ∀ p, P p → P p.interrupt) (hf : ∀ p, P p → P (f p).2) : Keeps P (step f) :=
  fun p hp => hf _ (hinterrupt p hp)

/-! ## Kill calls -/

/-- The solver does not run any more. -/
def Ended (p : Pipe) : Prop := p.status.isRunning = false

theorem ended_kill (p : Pipe) : p.kill.Ended := by
  rw [kill, Ended]
  split
  · rfl
  · rfl
  · next hstatus hstatus' =>
    cases hs : p.status with
    | running inQuery =>
      cases inQuery with
      | true => exact absurd hs hstatus
      | false => exact absurd hs hstatus'
    | stopping => rfl
    | unreaped => rfl
    | reaped => rfl

theorem kill_of_ended (h : p.Ended) : p.kill = p := by
  rw [kill]
  split
  · next hs => cases (congrArg Status.isRunning hs).symm.trans h
  · next hs => cases (congrArg Status.isRunning hs).symm.trans h
  · rfl

theorem killTimes_of_ended (h : p.Ended) (n : Nat) : killTimes n p = p := by
  induction n with
  | zero => rfl
  | succ n ih => rw [killTimes, kill_of_ended h, ih]

theorem ended_killTimes {n : Nat} (hn : n ≠ 0) (p : Pipe) : (killTimes n p).Ended := by
  cases n with
  | zero => exact absurd rfl hn
  | succ n =>
    rw [killTimes, killTimes_of_ended (ended_kill p)]
    exact ended_kill p

/-- What kill calls do not change stays true when they land before a step. -/
theorem interrupt_induction {P : Pipe → Prop} (hkill : ∀ p, P p → P p.kill)
    (hkills : ∀ p k, P p → P { p with kills := k }) (hp : P p) : P p.interrupt := by
  have htimes : ∀ n p, P p → P (killTimes n p) := by
    intro n
    induction n with
    | zero => exact fun p hp => hp
    | succ n ih => exact fun p hp => ih _ (hkill p hp)
  rw [interrupt]
  split
  · exact hp
  · exact htimes _ _ (hkills p _ hp)

theorem interrupt_cases (p : Pipe) :
    p.interrupt.Ended ∨
      (p.interrupt.status = p.status ∧ p.interrupt.kills.pending = p.kills.pending) := by
  rw [interrupt]
  split
  · exact .inr ⟨rfl, rfl⟩
  · next n rest hbefore =>
    by_cases hn : n = 0
    · subst hn
      refine .inr ⟨rfl, ?_⟩
      rw [killTimes, Kills.pending, Kills.pending, hbefore, List.foldr_cons, Nat.zero_add]
    · exact .inl (ended_killTimes hn _)

theorem interrupt_of_ended (h : p.Ended) : ∃ k, p.interrupt = { p with kills := k } := by
  rw [interrupt]
  split
  · exact ⟨p.kills, rfl⟩
  · next n rest _ =>
    have hended : Ended { p with kills := { p.kills with before := rest } } := h
    exact ⟨_, killTimes_of_ended hended n⟩

/-! ## What every action starts with -/

theorem settle_of_running (h : p.status.isRunning = true) : p.settle = (.ok (), p) := by
  rw [settle]
  split
  · rfl
  · next hs => cases (congrArg Status.isRunning hs).symm.trans h
  · next hs => cases (congrArg Status.isRunning hs).symm.trans h
  · next hs => cases (congrArg Status.isRunning hs).symm.trans h

theorem settle_of_ended (h : p.Ended) :
    p.settle = (.error .killed, p.settle.2) ∧ p.settle.2.status = .reaped := by
  rw [settle]
  split
  · next hs => cases (congrArg Status.isRunning hs).symm.trans h
  · exact ⟨rfl, rfl⟩
  · exact ⟨rfl, rfl⟩
  · next hs => exact ⟨rfl, hs⟩

theorem ended_settle (h : p.Ended) : p.settle.2.Ended := by
  rw [Ended, (settle_of_ended h).2]
  rfl

theorem running_or_ended (p : Pipe) : p.status.isRunning = true ∨ p.Ended := by
  rw [Ended]
  cases p.status.isRunning with
  | true => exact .inl rfl
  | false => exact .inr rfl

theorem setInQuery_of_running (h : p.interrupt.status.isRunning = true) (inQuery : Bool) :
    setInQuery inQuery p = (.ok (), { p.interrupt with status := .running inQuery }) := by
  rw [setInQuery, step, settle_of_running h]

theorem setInQuery_of_ended (h : p.interrupt.Ended) (inQuery : Bool) :
    setInQuery inQuery p = (.error .killed, p.interrupt.settle.2) := by
  rw [setInQuery, step, (settle_of_ended h).1]

/-! ## What every action keeps -/

/-- An action inside a query, and what is made of its result outside. -/
def query {α β : Type} (a : Action α) (f : Except SolverError α → Action β) : Action β := do
  setInQuery true
  let r ← attempt a
  setInQuery false
  f r

def interpret (answer : Except SolverError String) : Action SatAnswer := do
  match ← checkSat.liftExcept answer with
  | "sat" => pure .sat
  | "unsat" => pure .unsat
  | "unknown" =>
    let reason ← info ":reason-unknown"
    let _ ← save
    pure (.unknown reason.print)
  | other => throw (.unexpectedClose (errorReport other))

theorem checkSat_eq :
    checkSat = send (.app "check-sat" []) >>= fun _ => query response interpret := rfl

def reading : Action Sexp := do
  let answer ← response
  if "(error".toList.isPrefixOf answer.toList then throw (.unexpectedClose (errorReport answer))
  else
    match Sexp.read answer with
    | .ok y => pure y
    | .error e => throw (.parse answer e.message)

theorem ask_eq (x : Sexp) : ask x = send x >>= fun _ => reading := rfl

theorem values_eq {names : List String} (hnames : names ≠ []) :
    values names =
      query (ask (.app "get-value" [.list (names.map .sym)])) fun answer p => (answer, p) := by
  rw [values, if_neg (by rwa [List.isEmpty_iff])]
  rfl

def greeting (l : Launch) : Action Unit := do
  send (.app "set-option" [.sym ":produce-models", .sym "true"])
  l.options.forM fun option => send (.app "set-option" [.sym (":" ++ option.1), .sym option.2])
  send (.app "set-logic" [.sym l.logic])

theorem launch_eq_ok {programs : String → Option Peer} {l : Launch} {transcript : Option Transcript}
    (h : launch programs l transcript = .ok p) :
    ∃ peer, programs l.program = some peer ∧
      greeting l { peer, transcript := transcript.map (·.append (.comment l.commandLine)) } =
        (.ok (), p) := by
  rw [launch] at h
  split at h
  · cases h
  · next peer hpeer =>
    refine ⟨peer, hpeer, ?_⟩
    dsimp only at h
    split at h
    · next hgreeting =>
      cases h
      exact hgreeting
    · cases h

theorem launch_of_greeting {programs : String → Option Peer} {l : Launch}
    {transcript : Option Transcript} {peer : Peer} (hprogram : programs l.program = some peer)
    (hgreeting : greeting l
      { peer, transcript := transcript.map (·.append (.comment l.commandLine)) } = (.ok (), p)) :
    launch programs l transcript = .ok p := by
  rw [launch, hprogram]
  dsimp only
  split
  · next hrun =>
    cases hgreeting.symm.trans hrun
    rfl
  · next hrun => cases hgreeting.symm.trans hrun

/-- A property that the steps of actions keep, apart from entering and leaving a query, if only
certain events are written. -/
structure Stable (may : Event → Prop) (P : Pipe → Prop) : Prop where
  interrupt : ∀ p, P p → P p.interrupt
  settle : ∀ p, P p → P p.settle.2
  transcript : ∀ p t, P p → P { p with transcript := t }
  /-- The solver may do anything but come back to life. -/
  peer : ∀ p q, (q.alive = true → p.peer.alive = true) → P p → P { p with peer := q }
  written : ∀ p e, may e → P p → P { p with history := e :: p.history }
  silence : ∀ p, p.kills.whenSilent = true → P p →
    P (kill { p with kills := { p.kills with whenSilent := false } })

namespace Stable

variable {may : Event → Prop} {P : Pipe → Prop} (hP : Stable may P)

include hP

theorem keeps_checkKilled : Keeps P checkKilled := keeps_step hP.interrupt hP.settle

theorem keeps_record (x : Sexp) : Keeps P (record x) :=
  keeps_step hP.interrupt fun p hp => hP.transcript p _ hp

theorem keeps_write (text : String) {event : Event} (hevent : may event) :
    Keeps P (write text event) := by
  refine keeps_step hP.interrupt fun p hp => ?_
  split
  · next halive =>
    exact hP.peer { p with history := event :: p.history } _ (fun _ => halive)
      (hP.written p event hevent hp)
  · exact hp

theorem keeps_blame {α : Type} (e : SolverError) : Keeps P (blame e : Action α) :=
  hP.keeps_checkKilled.bind fun _ => keeps_throw e

theorem keeps_send {x : Sexp} (hx : may (.command x)) : Keeps P (send x) := by
  refine hP.keeps_checkKilled.bind fun _ => (hP.keeps_record x).bind fun _ => ?_
  refine (hP.keeps_write _ hx).bind fun r => ?_
  cases r with
  | ok => exact keeps_pure ()
  | error e => exact hP.keeps_blame e

theorem hear (hp : P p) : P p.hear.2 := by
  rw [Pipe.hear]
  dsimp only
  split
  · exact hP.peer p _ id hp
  · split
    · exact hp
    · exact hP.peer p _ id hp

theorem keeps_listen : Keeps P listen := by
  refine keeps_step hP.interrupt fun p hp => ?_
  have hheard := hP.hear hp
  dsimp only
  split
  · next q hq =>
    rw [hq] at hheard
    split
    · next hsilent =>
      have hkilled := hP.hear (hP.silence q hsilent hheard)
      split
      · next hlast => rwa [hlast] at hkilled
      · next hlast => rwa [hlast] at hkilled
    · exact hheard
  · next hq => rwa [hq] at hheard

theorem keeps_response (hmarker : may .marker) : Keeps P response := by
  refine (hP.keeps_write _ hmarker).bind fun r => ?_
  cases r with
  | error e => exact hP.keeps_blame e
  | ok =>
    refine hP.keeps_listen.bind fun heard => ?_
    cases heard with
    | answer text => exact keeps_pure text
    | ended text => exact hP.keeps_blame _
    | silence => exact keeps_throw _

theorem keeps_reading (hmarker : may .marker) : Keeps P reading := by
  refine (hP.keeps_response hmarker).bind fun answer => ?_
  split
  · exact keeps_throw _
  · split
    · exact keeps_pure _
    · exact keeps_throw _

theorem keeps_ask (hmarker : may .marker) {x : Sexp} (hx : may (.command x)) :
    Keeps P (ask x) := by
  rw [ask_eq]
  exact (hP.keeps_send hx).bind fun _ => hP.keeps_reading hmarker

theorem keeps_info (hmarker : may .marker) {name : String}
    (hname : may (.command (.app "get-info" [.sym name]))) : Keeps P (info name) := by
  refine (hP.keeps_ask hmarker hname).bind fun y => ?_
  dsimp only
  split
  · split
    · exact keeps_pure _
    · exact keeps_throw _
  · exact keeps_throw _

theorem keeps_save : Keeps P save := by
  refine keeps_step hP.interrupt fun p hp => ?_
  split
  · exact hp
  · exact hP.transcript p _ hp

theorem keeps_annotate (note : String) : Keeps P (annotate note) :=
  keeps_step hP.interrupt fun p hp => hP.transcript p _ hp

theorem keeps_interpret (hmarker : may .marker)
    (hreason : may (.command (.app "get-info" [.sym ":reason-unknown"])))
    (answer : Except SolverError String) : Keeps P (interpret answer) := by
  have hlift : Keeps P (checkSat.liftExcept answer) := fun p hp => hp
  refine hlift.bind fun text => ?_
  split
  · exact keeps_pure _
  · exact keeps_pure _
  · refine (hP.keeps_info hmarker hreason).bind fun reason => ?_
    exact hP.keeps_save.bind fun _ => keeps_pure _
  · exact keeps_throw _

theorem keeps_setInQuery
    (hquery : ∀ p b, p.status.isRunning = true → P p → P { p with status := .running b })
    (inQuery : Bool) : Keeps P (setInQuery inQuery) := by
  intro p hp
  rcases running_or_ended p.interrupt with hrunning | hended
  · rw [setInQuery_of_running hrunning]
    exact hquery _ inQuery hrunning (hP.interrupt p hp)
  · rw [setInQuery_of_ended hended]
    exact hP.settle _ (hP.interrupt p hp)

theorem keeps_query {α β : Type}
    (hquery : ∀ p b, p.status.isRunning = true → P p → P { p with status := .running b })
    {a : Action α} {f : Except SolverError α → Action β} (ha : Keeps P a)
    (hf : ∀ r, Keeps P (f r)) : Keeps P (query a f) := by
  refine (hP.keeps_setInQuery hquery true).bind fun _ => (keeps_attempt ha).bind fun r => ?_
  exact (hP.keeps_setInQuery hquery false).bind fun _ => hf r

theorem keeps_greeting (hoption : ∀ name value,
      may (.command (.app "set-option" [.sym name, .sym value])))
    (hlogic : ∀ name, may (.command (.app "set-logic" [.sym name]))) (l : Launch) :
    Keeps P (greeting l) := by
  refine (hP.keeps_send (hoption _ _)).bind fun _ => Keeps.bind ?_ fun _ =>
    hP.keeps_send (hlogic _)
  exact Stateful.keeps_forM (fun option => hP.keeps_send (hoption _ _)) l.options

end Stable

end Pipe

end LoopInvariant.Solver
