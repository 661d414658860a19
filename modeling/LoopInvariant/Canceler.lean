/-!
# Cancelers

A flag is canceled on its own, and a set cancels its members. Cancelers are shared: a set knows its
members by their number, and several sets may have the same member.
-/

namespace LoopInvariant

/-- A canceler. -/
inductive Canceler where
  | flag (canceled : Bool)
  /-- A set with the members that it still has to cancel. -/
  | set (canceled : Bool) (members : List Nat)
  deriving DecidableEq

namespace Canceler

/-- Whether it was canceled. -/
def isCanceled : Canceler → Bool
  | flag b => b
  | set b _ => b

/-- The members that are still to be canceled with it. -/
def members : Canceler → List Nat
  | flag _ => []
  | set _ ms => ms

/-- The canceler itself canceled, without its members. -/
def fire : Canceler → Canceler
  | flag _ => flag true
  | set _ _ => set true []

/-- The number of members that several cancelers have to cancel. -/
def load (cs : List Canceler) : Nat := cs.foldr (fun c n => c.members.length + n) 0

theorem load_set {cs : List Canceler} {i : Nat} {c : Canceler} (h : cs[i]? = some c) :
    load (cs.set i c.fire) + c.members.length = load cs := by
  induction cs generalizing i with
  | nil => simp at h
  | cons d ds ih =>
    cases i with
    | zero =>
      simp only [List.getElem?_cons_zero, Option.some.injEq] at h
      subst h
      have hfire : (fire d).members = [] := by cases d <;> rfl
      simp [load, hfire, Nat.add_comm]
    | succ i =>
      simp only [List.getElem?_cons_succ] at h
      have hrest := ih h
      simp only [load, List.set_cons_succ, List.foldr_cons] at *
      omega

/-- Cancel everything on a list, and with each set its members. A set gives its members away when it
is canceled, so that this ends also if sets contain each other. -/
def cancelAll (cs : List Canceler) (pending : List Nat) : List Canceler :=
  match pending with
  | [] => cs
  | i :: rest =>
    match _h : cs[i]? with
    | none => cancelAll cs rest
    | some c => cancelAll (cs.set i c.fire) (c.members ++ rest)
termination_by load cs + pending.length
decreasing_by
  · simp
  · have := load_set _h
    simp only [List.length_append, List.length_cons]
    omega

/-- Cancel one canceler. -/
def cancel (cs : List Canceler) (i : Nat) : List Canceler := cancelAll cs [i]

/-- Add a member to a set, and say whether the set took it: one that was canceled cancels the member
at once instead. Only sets have members. -/
def add? (cs : List Canceler) (i member : Nat) : Option (Bool × List Canceler) :=
  match cs[i]? with
  | some (.set false ms) => some (true, cs.set i (.set false (ms ++ [member])))
  | some (.set true _) => some (false, cancel cs member)
  | _ => none

end Canceler

end LoopInvariant
