import LoopInvariant.Proofs.Stateful
import LoopInvariant.Session
/-!
# Programs that talk to a session

What can be done with a session is a tree: a request, and for each of its outcomes what is done
next. So a program may go on after an error, open scopes of its own and close them, or stop with an
error of its own. What is said of every such program is said of everything that is written against
sessions. A program that closes what it opens, and nothing else, leaves the scopes around it alone.
-/

namespace LoopInvariant.Session

open Solver (SatAnswer)
open Stateful (Keeps)

variable {σ α β : Type}

/-! ## Requests -/

inductive Request where
  | push
  | pop
  | declare (xs : List String)
  | assert (t : Term)
  | checkSat
  | model (xs : List String)
  | modelOf (t : Term) (xs : List String)
  deriving DecidableEq

namespace Request

/-- What a request gives if it does not fail. -/
@[reducible] def Reply : Request → Type
  | .checkSat => SatAnswer
  | .model _ => Valuation
  | .modelOf _ _ => Option Valuation
  | _ => Unit

def run [Session σ] : (q : Request) → SessionM σ q.Reply
  | .push => Session.push
  | .pop => Session.pop
  | .declare xs => Session.declare xs
  | .assert t => Session.assert t
  | .checkSat => Session.checkSat
  | .model xs => Session.model xs
  | .modelOf t xs => Session.modelOf t xs

def perform [Session σ] (q : Request) : SessionM σ Unit := (fun _ => ()) <$> q.run

def isFlat : Request → Bool
  | .push | .pop | .modelOf _ _ => false
  | _ => true

/-- How many scopes are open after a request, of those opened since some time. -/
def level (n : Nat) : (q : Request) → Except SessionError q.Reply → Nat
  | .push, .ok _ => n + 1
  | .pop, _ => n - 1
  | _, _ => n

theorem level_of_isFlat {q : Request} (hq : q.isFlat = true) (n : Nat)
    (r : Except SessionError q.Reply) : q.level n r = n := by
  cases q with
  | push => cases hq
  | pop => cases hq
  | _ => rfl

theorem exists_reply_of_perform [Session σ] {q : Request} {s s' : σ}
    (h : q.perform s = (.ok (), s')) : ∃ r, q.run s = (.ok r, s') := by
  obtain ⟨r, u, hrun, hpure⟩ := Stateful.exists_of_bind_eq h
  cases hpure
  exact ⟨r, hrun⟩

theorem perform_of_reply [Session σ] {q : Request} {s s' : σ} {r : q.Reply}
    (h : q.run s = (.ok r, s')) : q.perform s = (.ok (), s') := by
  rw [perform, Stateful.map_run, h]
  rfl

end Request

/-! ## Programs -/

/-- A program that talks to a session. Besides its requests it may cancel the session, or ask
whether somebody has. -/
inductive Dialogue (α : Type) where
  | done (r : Except SessionError α)
  | ask (q : Request) (next : Except SessionError q.Reply → Dialogue α)
  | cancel (next : Dialogue α)
  | isCanceled (next : Bool → Dialogue α)

namespace Dialogue

def run [Session σ] : Dialogue α → SessionM σ α
  | done r => ofResult r
  | ask q next => fun s => (next (q.run s).1).run (q.run s).2
  | cancel next => fun s => next.run (Session.cancel s)
  | isCanceled next => fun s => (next (Session.isCanceled s)).run s

def request (q : Request) : Dialogue q.Reply := ask q done

/-- One program after another, unless the first fails. -/
def bind : Dialogue α → (α → Dialogue β) → Dialogue β
  | done (.ok v), f => f v
  | done (.error e), _ => done (.error e)
  | ask q next, f => ask q fun r => (next r).bind f
  | cancel next, f => cancel (next.bind f)
  | isCanceled next, f => isCanceled fun b => (next b).bind f

/-- In a run that starts with some scopes of its own open, a program closes no scope that it did not
open, and in the end it has closed all of them. -/
def Balanced [Session σ] : Dialogue α → Nat → σ → Prop
  | done _, n, _ => n = 0
  | ask q next, n, s =>
    (q = .pop → n ≠ 0) ∧ (next (q.run s).1).Balanced (q.level n (q.run s).1) (q.run s).2
  | cancel next, n, s => next.Balanced n (Session.cancel s)
  | isCanceled next, n, s => (next (Session.isCanceled s)).Balanced n s

instance decidableBalanced [Session σ] :
    (d : Dialogue α) → (n : Nat) → (s : σ) → Decidable (d.Balanced n s)
  | done _, n, _ => inferInstanceAs (Decidable (n = 0))
  | ask q next, n, s =>
    have := decidableBalanced (next (q.run s).1) (q.level n (q.run s).1) (q.run s).2
    inferInstanceAs (Decidable ((q = .pop → n ≠ 0) ∧
      (next (q.run s).1).Balanced (q.level n (q.run s).1) (q.run s).2))
  | cancel next, n, s => decidableBalanced next n (Session.cancel s)
  | isCanceled next, n, s => decidableBalanced (next (Session.isCanceled s)) n s

def Flat : Dialogue α → Prop
  | done _ => True
  | ask q next => q.isFlat = true ∧ ∀ r, (next r).Flat
  | cancel next => next.Flat
  | isCanceled next => ∀ b, (next b).Flat

variable [Session σ]

theorem run_bind (d : Dialogue α) (f : α → Dialogue β) :
    ((d.bind f).run : SessionM σ β) = d.run >>= fun v => (f v).run := by
  funext s
  induction d generalizing s with
  | done r => cases r <;> rfl
  | ask q next ih => exact ih (q.run s).1 (q.run s).2
  | cancel next ih => exact ih (Session.cancel s)
  | isCanceled next ih => exact ih (Session.isCanceled s) s

theorem flat_request {q : Request} (hq : q.isFlat = true) : (request q).Flat :=
  ⟨hq, fun _ => trivial⟩

theorem Flat.bind {d : Dialogue α} {f : α → Dialogue β} (hd : d.Flat) (hf : ∀ v, (f v).Flat) :
    (d.bind f).Flat := by
  induction d with
  | done r =>
    cases r with
    | error e => trivial
    | ok v => exact hf v
  | ask q next ih => exact ⟨hd.1, fun r => ih r (hd.2 r)⟩
  | cancel next ih => exact ih hd
  | isCanceled next ih => exact fun b => ih b (hd b)

theorem Flat.balanced {d : Dialogue α} (h : d.Flat) (s : σ) : d.Balanced 0 s := by
  induction d generalizing s with
  | done r => rfl
  | ask q next ih =>
    refine ⟨?_, ?_⟩
    · rintro rfl
      cases h.1
    · rw [Request.level_of_isFlat h.1]
      exact ih _ (h.2 _) _
  | cancel next ih => exact ih h _
  | isCanceled next ih => exact ih _ (h _) s

end Dialogue

/-! ## Questions -/

def lookUp (vars : List String) : SatAnswer → Dialogue (Option Valuation)
  | .sat => (Dialogue.request (.model vars)).bind fun m => .done (.ok (some m))
  | .unsat => .done (.ok none)
  | .unknown reason => .done (.error (.unknown reason))

/-- The program that looks for a model of a formula on top of the assertions. -/
def inquiry (t : Term) (vars : List String) : Dialogue (Option Valuation) :=
  (Dialogue.request (.declare vars)).bind fun _ =>
    (Dialogue.request (.assert t)).bind fun _ => (Dialogue.request .checkSat).bind (lookUp vars)

theorem flat_inquiry (t : Term) (vars : List String) : (inquiry t vars).Flat := by
  refine (Dialogue.flat_request rfl).bind fun _ => (Dialogue.flat_request rfl).bind fun _ =>
    (Dialogue.flat_request rfl).bind fun answer => ?_
  cases answer with
  | sat => exact (Dialogue.flat_request rfl).bind fun _ => trivial
  | unsat => trivial
  | unknown reason => trivial

section Questions

variable [Session σ]

theorem run_lookUp_sat (vars : List String) :
    ((lookUp vars .sat).run : SessionM σ (Option Valuation)) = some <$> model vars := by
  rw [lookUp, Dialogue.run_bind]
  exact bind_pure_comp _ _

theorem run_inquiry (t : Term) (vars : List String) :
    ((inquiry t vars).run : SessionM σ (Option Valuation)) =
      declare vars >>= fun _ => assert t >>= fun _ =>
        checkSat >>= fun answer => (lookUp vars answer).run := by
  rw [inquiry, Dialogue.run_bind]
  refine bind_congr fun _ => ?_
  rw [Dialogue.run_bind]
  refine bind_congr fun _ => ?_
  rw [Dialogue.run_bind]
  rfl

theorem modelOf_eq_inScope (t : Term) (vars : List String) :
    (modelOf t vars : SessionM σ (Option Valuation)) = inScope (inquiry t vars).run := by
  rw [run_inquiry]
  refine congrArg inScope (bind_congr fun _ => bind_congr fun _ => bind_congr fun answer => ?_)
  cases answer with
  | sat => exact (run_lookUp_sat vars).symm
  | unsat => rfl
  | unknown reason => rfl

end Questions

/-! ## Scopes -/

variable [Session σ] {a : SessionM σ α} {s s' : σ}

theorem inScope_of_error {e : SessionError} (h : (push : SessionM σ Unit) s = (.error e, s')) :
    inScope a s = (.error e, s') := Stateful.bind_of_error h

/-- Once a scope is open it is closed in the end, however the action goes. -/
theorem inScope_of_ok (h : (push : SessionM σ Unit) s = (.ok (), s')) :
    inScope a s =
      ((a s').1.bind fun v => ((pop : SessionM σ Unit) (a s').2).1.map fun _ => v,
        ((pop : SessionM σ Unit) (a s').2).2) := by
  have hbody : attempt a s' = (.ok (a s').1, (a s').2) := rfl
  have hpop : attempt (pop : SessionM σ Unit) (a s').2 =
      (.ok ((pop : SessionM σ Unit) (a s').2).1, ((pop : SessionM σ Unit) (a s').2).2) := rfl
  rw [inScope, Stateful.bind_of_ok h, Stateful.bind_of_ok hbody, Stateful.bind_of_ok hpop]
  cases (a s').1 with
  | error e => rfl
  | ok v => cases ((pop : SessionM σ Unit) (a s').2).1 <;> rfl

/-! ## What is kept -/

/-- A property that is kept by everything that can be done with a session, whatever the result. -/
structure Kept (P : σ → Prop) : Prop where
  push : Keeps P (push : SessionM σ Unit)
  pop : Keeps P (pop : SessionM σ Unit)
  declare : ∀ xs, Keeps P (declare xs : SessionM σ Unit)
  assert : ∀ t, Keeps P (assert t : SessionM σ Unit)
  checkSat : Keeps P (checkSat : SessionM σ SatAnswer)
  model : ∀ xs, Keeps P (model xs : SessionM σ Valuation)
  cancel : ∀ s, P s → P (cancel s)

theorem keeps_lookUp {P : σ → Prop} {vars : List String}
    (hmodel : Keeps P (model vars : SessionM σ Valuation)) (answer : SatAnswer) :
    Keeps P ((lookUp vars answer).run : SessionM σ (Option Valuation)) := by
  cases answer with
  | sat =>
    rw [run_lookUp_sat]
    exact hmodel.map some
  | unsat => exact fun s hs => hs
  | unknown reason => exact fun s hs => hs

namespace Kept

variable {P : σ → Prop} (h : Kept P)

include h

theorem modelOf (t : Term) (vars : List String) :
    Keeps P (modelOf t vars : SessionM σ (Option Valuation)) := by
  intro s hs
  have hinquiry : Keeps P ((inquiry t vars).run : SessionM σ (Option Valuation)) := by
    rw [run_inquiry]
    exact (h.declare vars).bind fun _ => (h.assert t).bind fun _ =>
      h.checkSat.bind (keeps_lookUp (h.model vars))
  have hopened := h.push s hs
  rw [modelOf_eq_inScope]
  rcases hpush : (Session.push : SessionM σ Unit) s with ⟨e | ⟨⟩, s'⟩
  · rw [hpush] at hopened
    rwa [inScope_of_error hpush]
  · rw [hpush] at hopened
    rw [inScope_of_ok hpush]
    exact h.pop _ (hinquiry s' hopened)

theorem request (q : Request) : Keeps P (q.run : SessionM σ q.Reply) := by
  cases q with
  | push => exact h.push
  | pop => exact h.pop
  | declare xs => exact h.declare xs
  | assert t => exact h.assert t
  | checkSat => exact h.checkSat
  | model xs => exact h.model xs
  | modelOf t xs => exact h.modelOf t xs

theorem run (d : Dialogue α) : Keeps P (d.run : SessionM σ α) := by
  induction d with
  | done r => exact fun s hs => hs
  | ask q next ih => exact fun s hs => ih _ _ (h.request q s hs)
  | cancel next ih => exact fun s hs => ih _ (h.cancel s hs)
  | isCanceled next ih => exact fun s hs => ih _ s hs

end Kept

/-! ## What lies under open scopes -/

/-- What is seen of a session can be told while scopes are open on top of it: `above v n` says that
without the `n` innermost scopes it would be `v`. A scope counts as closed even if closing it
fails. -/
structure Layered (view : σ → β) (above : β → Nat → σ → Prop) : Prop where
  start : ∀ s, above (view s) 0 s
  view_eq : ∀ {v s}, above v 0 s → view s = v
  opened : ∀ {v n s s'}, above v n s → (push : SessionM σ Unit) s = (.ok (), s') →
    above v (n + 1) s'
  refused : ∀ {v n s s' e}, above v n s → (push : SessionM σ Unit) s = (.error e, s') →
    above v n s'
  closed : ∀ {v n s}, above v (n + 1) s → above v n ((pop : SessionM σ Unit) s).2
  flat : ∀ {v n s} {q : Request}, q.isFlat = true → above v (n + 1) s →
    above v (n + 1) ((q.run : SessionM σ q.Reply) s).2
  canceled : ∀ {v n s}, above v (n + 1) s → above v (n + 1) (cancel s)

/-- An action in a scope of its own leaves what is seen of a session as it was. If it is run, that
is if the scope can be opened, an error of it is the error of the whole. -/
structure Restores (view : σ → β) (a : SessionM σ α) (s : σ) : Prop where
  view_eq : view (inScope a s).2 = view s
  error_eq : ∀ {s' e}, (push : SessionM σ Unit) s = (.ok (), s') → (a s').1 = .error e →
    (inScope a s).1 = .error e

namespace Layered

variable {view : σ → β} {above : β → Nat → σ → Prop} (h : Layered view above) {v : β} {n : Nat}
  {d : Dialogue α}

include h

theorem inScope (hs : above v n s)
    (ha : ∀ s', (push : SessionM σ Unit) s = (.ok (), s') → above v (n + 1) s' →
      above v (n + 1) (a s').2) : above v n (Session.inScope a s).2 := by
  rcases hpush : (push : SessionM σ Unit) s with ⟨e | ⟨⟩, s'⟩
  · rw [inScope_of_error hpush]
    exact h.refused hs hpush
  · rw [inScope_of_ok hpush]
    exact h.closed (ha s' hpush (h.opened hs hpush))

theorem run_flat (hs : above v (n + 1) s) (hd : d.Flat) : above v (n + 1) (d.run s).2 := by
  induction d generalizing s with
  | done r => exact hs
  | ask q next ih => exact ih _ (h.flat hd.1 hs) (hd.2 _)
  | cancel next ih => exact ih (h.canceled hs) hd
  | isCanceled next ih => exact ih _ hs (hd _)

/-- A request keeps what lies under the scopes that are open after it. -/
theorem request {q : Request} (hs : above v (n + 1) s) (hq : q = .pop → n ≠ 0) :
    above v (q.level n (q.run s).1 + 1) (q.run s).2 := by
  by_cases hflat : q.isFlat = true
  · rw [Request.level_of_isFlat hflat]
    exact h.flat hflat hs
  · cases q with
    | push =>
      show above v (Request.level n .push ((push : SessionM σ Unit) s).1 + 1)
        ((push : SessionM σ Unit) s).2
      rcases hpush : (push : SessionM σ Unit) s with ⟨e | ⟨⟩, s'⟩
      · exact h.refused hs hpush
      · exact h.opened hs hpush
    | pop =>
      obtain ⟨n, rfl⟩ := Nat.exists_eq_succ_of_ne_zero (hq rfl)
      exact h.closed hs
    | modelOf t vars =>
      show above v (n + 1) (modelOf t vars s).2
      rw [modelOf_eq_inScope]
      exact h.inScope hs fun s' _ hs' => h.run_flat hs' (flat_inquiry t vars)
    | _ => exact absurd rfl hflat

theorem run (hs : above v (n + 1) s) (hd : d.Balanced n s) : above v 1 (d.run s).2 := by
  induction d generalizing n s with
  | done r =>
    cases hd
    exact hs
  | ask q next ih => exact ih _ (h.request hs hd.1) hd.2
  | cancel next ih => exact ih (h.canceled hs) hd
  | isCanceled next ih => exact ih _ hs hd

theorem restores (hd : ∀ s', (push : SessionM σ Unit) s = (.ok (), s') → d.Balanced 0 s') :
    Restores view d.run s := by
  refine ⟨?_, fun {s' e} hopened herror => ?_⟩
  · exact h.view_eq (h.inScope (h.start s) fun s' hpush hs' => h.run hs' (hd s' hpush))
  · rw [inScope_of_ok hopened, herror]
    rfl

end Layered

end LoopInvariant.Session
