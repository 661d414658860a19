import LoopInvariant.Proofs.Components
import Mathlib.Logic.Function.Basic
/-!
# A search with frames

Components can be searched for without recursion. Every location whose edges are being followed has
a frame with the number of its next edge, and a table has the low points. A turn follows one edge of
the innermost frame, or it removes the frame when there is no edge left and hands the low point on
to the frame below. The turns from the discovery of a location to the removal of its frame come to
what `Exploration.explore` gives. So the search ends for every automaton, with the components that
`Automaton.components` has, in the same order.
-/

namespace LoopInvariant

/-- A search for components with its frames, the innermost first. -/
structure FramedSearch where
  exploration : Exploration := .empty
  low : Loc → Nat := fun _ => 0
  /-- The locations whose edges are followed, each with the number of its next edge. -/
  frames : List (Loc × Nat) := []

namespace FramedSearch

def visit (s : FramedSearch) (l : Loc) : FramedSearch where
  exploration := s.exploration.enter l
  low := Function.update s.low l s.exploration.discovered.length
  frames := (l, 0) :: s.frames

def lower (s : FramedSearch) (l : Loc) (low : Nat) : FramedSearch :=
  { s with low := Function.update s.low l (min (s.low l) low) }

def lowerTop (s : FramedSearch) (low : Nat) : FramedSearch :=
  match s.frames with
  | [] => s
  | (l, _) :: _ => s.lower l low

/-- Follow an edge. A location that waits no more is out of reach. -/
def follow (s : FramedSearch) (l m : Loc) : FramedSearch :=
  if m ∉ s.exploration.discovered then s.visit m
  else if m ∈ s.exploration.waiting then s.lower l (s.exploration.discovered.idxOf m)
  else s

/-- Leave a location whose frame was removed. One that leads back no further than to itself closes
its component. -/
def leave (s : FramedSearch) (l : Loc) : FramedSearch :=
  let handed := s.lowerTop (s.low l)
  if s.low l = s.exploration.discovered.idxOf l then
    { handed with exploration := s.exploration.close l }
  else handed

def turn (next : Loc → List Loc) (s : FramedSearch) : FramedSearch :=
  match s.frames with
  | [] => s
  | (l, i) :: frames =>
    match (next l)[i]? with
    | some m => { s with frames := (l, i + 1) :: frames }.follow l m
    | none => { s with frames }.leave l

/-- Take turns until no frame is left. Gives nothing if there are too few. -/
def run (next : Loc → List Loc) : Nat → FramedSearch → Option FramedSearch
  | 0, _ => none
  | turns + 1, s => if s.frames = [] then some s else run next turns (s.turn next)

def runAll (next : Loc → List Loc) (turns : Nat) : List Loc → FramedSearch → Option FramedSearch
  | [], s => some s
  | l :: ls, s =>
    if l ∈ s.exploration.discovered then runAll next turns ls s
    else (run next turns (s.visit l)).bind (runAll next turns ls)

end FramedSearch

/-- The components of a part of the automaton, searched for with frames. Gives nothing if there are
too few turns. -/
def Automaton.framedComponents (a : Automaton) (turns : Nat) (nodes : List Loc) :
    Option (List (List Loc)) :=
  (FramedSearch.runAll (a.localTargets nodes) turns nodes {}).map (·.exploration.components)

namespace FramedSearch

open Exploration (Sound Explores explore)

variable {next : Loc → List Loc} {s t u : FramedSearch} {x y : Exploration} {l m : Loc} {low : Nat}
  {nodes done : List Loc} {frames : List (Loc × Nat)}

/-! ## Turns -/

def Reaches (next : Loc → List Loc) (s t : FramedSearch) : Prop :=
  ∃ turns, ∀ more, run next (turns + more) s = run next more t

theorem Reaches.refl (s : FramedSearch) : Reaches next s s := ⟨0, fun more => by rw [Nat.zero_add]⟩

theorem Reaches.trans (h : Reaches next s t) (h' : Reaches next t u) : Reaches next s u := by
  obtain ⟨turns, hturns⟩ := h
  obtain ⟨turns', hturns'⟩ := h'
  exact ⟨turns + turns', fun more => by rw [Nat.add_assoc, hturns, hturns']⟩

theorem reaches_turn (h : s.frames ≠ []) : Reaches next s (s.turn next) :=
  ⟨1, fun more => by rw [Nat.add_comm, run, if_neg h]⟩

theorem reaches_follow {i : Nat} (hframes : s.frames = (l, i) :: frames)
    (hedge : (next l)[i]? = some m) :
    Reaches next s ({ s with frames := (l, i + 1) :: frames }.follow l m) := by
  have hturn : Reaches next s (s.turn next) := reaches_turn (by simp [hframes])
  simpa only [turn, hframes, hedge] using hturn

theorem reaches_leave {i : Nat} (hframes : s.frames = (l, i) :: frames)
    (hdone : (next l)[i]? = none) : Reaches next s ({ s with frames }.leave l) := by
  have hturn : Reaches next s (s.turn next) := reaches_turn (by simp [hframes])
  simpa only [turn, hframes, hdone] using hturn

theorem Reaches.exists_run (h : Reaches next s t) (hframes : t.frames = []) :
    ∃ turns, ∀ more, run next (turns + more) s = some t := by
  obtain ⟨turns, hturns⟩ := h
  refine ⟨turns + 1, fun more => ?_⟩
  rw [Nat.add_assoc, hturns, Nat.add_comm, run, if_pos hframes]

/-! ## One location -/

/-- The search when the frame of a location was removed: its low point was handed on, and so far as
locations were discovered before, nothing else has changed. -/
structure Resumes (s : FramedSearch) (r : Exploration × Nat) (t : FramedSearch) : Prop where
  exploration_eq : t.exploration = r.1
  frames_eq : t.frames = s.frames
  low_eq : ∀ m ∈ s.exploration.discovered, t.low m = (s.lowerTop r.2).low m

/-- The search while the edges of a location are followed, the next of which has a number. -/
structure Passes (x : Exploration) (s : FramedSearch) (l : Loc) (frames : List (Loc × Nat))
    (r : Exploration × Nat) (i : Nat) (t : FramedSearch) : Prop where
  result : (t.exploration, t.low l) = r
  frames_eq : t.frames = (l, i) :: frames
  low_eq : ∀ m ∈ x.discovered, t.low m = s.low m

theorem low_lower_self (s : FramedSearch) (l : Loc) (low : Nat) :
    (s.lower l low).low l = min (s.low l) low := Function.update_self ..

theorem low_lower_of_ne (s : FramedSearch) (hne : m ≠ l) (low : Nat) :
    (s.lower l low).low m = s.low m := Function.update_of_ne hne ..

theorem low_lowerTop_congr (hframes : t.frames = s.frames) (hlow : t.low m = s.low m) (low : Nat) :
    (t.lowerTop low).low m = (s.lowerTop low).low m := by
  rw [lowerTop, lowerTop, hframes]
  split
  · exact hlow
  · next l _ _ _ =>
    by_cases heq : m = l
    · rw [← heq, low_lower_self, low_lower_self, hlow]
    · rw [low_lower_of_ne _ heq, low_lower_of_ne _ heq, hlow]

theorem frames_lowerTop (s : FramedSearch) (low : Nat) : (s.lowerTop low).frames = s.frames := by
  rw [lowerTop]
  split <;> rfl

theorem exploration_lowerTop (s : FramedSearch) (low : Nat) :
    (s.lowerTop low).exploration = s.exploration := by
  rw [lowerTop]
  split <;> rfl

theorem resumes_leave (hframes : t.frames = s.frames)
    (hlow : ∀ m ∈ s.exploration.discovered, t.low m = s.low m) :
    Resumes s (if t.low l = t.exploration.discovered.idxOf l then t.exploration.close l
      else t.exploration, t.low l) (t.leave l) := by
  have hhanded : ∀ m ∈ s.exploration.discovered,
      (t.lowerTop (t.low l)).low m = (s.lowerTop (t.low l)).low m := fun m hm =>
    low_lowerTop_congr hframes (hlow m hm) _
  have hframes' : (t.lowerTop (t.low l)).frames = s.frames := (frames_lowerTop t _).trans hframes
  rw [leave]
  split
  · exact ⟨rfl, hframes', hhanded⟩
  · exact ⟨exploration_lowerTop t _, hframes', hhanded⟩

theorem idxOf_of_advances (h : Exploration.Advances next x l y low) (hnew : l ∉ x.discovered) :
    y.discovered.idxOf l = x.discovered.length := by
  rw [Exploration.idxOf_eq_idxOf h.discovered (List.mem_append_right _ List.mem_cons_self),
    List.idxOf_append_of_notMem hnew, List.idxOf_cons_self, Nat.add_zero]

section Edges

variable {explore : Exploration → Loc → Exploration × Nat} (hnodes : ∀ l, next l ⊆ nodes)
  (hx : Sound next x) (hl : l ∈ nodes) (hnew : l ∉ x.discovered) (hsub : x.discovered ⊆ nodes)
  (hexplore : ∀ y m, Sound next y → y.discovered ⊆ nodes →
    x.discovered.length < y.discovered.length → m ∉ y.discovered → m ∈ nodes →
      Explores next y m (explore y m).1 (explore y m).2)
  (hresumes : ∀ (s : FramedSearch) (m : Loc), Sound next s.exploration →
    s.exploration.discovered ⊆ nodes →
    x.discovered.length < s.exploration.discovered.length → m ∉ s.exploration.discovered →
      m ∈ nodes →
        ∃ t, Reaches next (s.visit m) t ∧ Resumes s (explore s.exploration m) t)

include hnodes hl hnew hsub hresumes

theorem exists_passes_edge (h : Exploration.Follows next x l done s.exploration (s.low l))
    (hframes : s.frames = (l, done.length) :: frames) (hedge : (next l)[done.length]? = some m) :
    ∃ t, Reaches next s t ∧
      Passes x s l frames (Exploration.follow explore (s.exploration, s.low l) m) (done.length + 1)
        t := by
  have hturn := reaches_follow hframes hedge
  have hne : ∀ k ∈ x.discovered, k ≠ l := fun k hk heq => hnew (heq ▸ hk)
  rw [follow] at hturn
  rw [Exploration.follow]
  by_cases hknown : m ∈ s.exploration.discovered
  · rw [if_neg (not_not.2 hknown)] at hturn
    rw [if_pos hknown]
    by_cases hwaiting : m ∈ s.exploration.waiting
    · rw [if_pos hwaiting] at hturn
      rw [if_pos hwaiting]
      refine ⟨_, hturn, Prod.ext rfl ?_, rfl, fun k hk => ?_⟩
      · exact low_lower_self _ l _
      · exact low_lower_of_ne _ (hne k hk) _
    · rw [if_neg hwaiting] at hturn
      rw [if_neg hwaiting]
      exact ⟨_, hturn, rfl, rfl, fun k hk => rfl⟩
  · rw [if_pos hknown] at hturn
    rw [if_neg hknown]
    obtain ⟨t, ht, hresume⟩ := hresumes { s with frames := (l, done.length + 1) :: frames } m
      h.sound (h.subset hnodes hl hsub) h.length_lt hknown (hnodes l (List.mem_of_getElem? hedge))
    refine ⟨t, hturn.trans ht, Prod.ext hresume.exploration_eq ?_, hresume.frames_eq,
      fun k hk => ?_⟩
    · rw [hresume.low_eq l h.mem]
      exact low_lower_self _ l _
    · rw [hresume.low_eq k (h.kept.subset hk)]
      exact low_lower_of_ne _ (hne k hk) _

include hx hexplore

theorem exists_passes (h : Exploration.Follows next x l done s.exploration (s.low l))
    {ms : List Loc} (hms : next l = done ++ ms) (hframes : s.frames = (l, done.length) :: frames) :
    ∃ t, Reaches next s t ∧
      Passes x s l frames (ms.foldl (Exploration.follow explore) (s.exploration, s.low l))
        (next l).length t := by
  induction ms generalizing done s with
  | nil => exact ⟨s, .refl s, rfl, by rw [hframes, hms, List.append_nil], fun k hk => rfl⟩
  | cons m ms ih =>
    have hedge : (next l)[done.length]? = some m := by simp [hms]
    obtain ⟨t, ht, hpasses⟩ := exists_passes_edge hnodes hl hnew hsub hresumes h hframes hedge
    have hfollow := Exploration.Follows.follow (s := (s.exploration, s.low l)) hnodes hx hl hsub
      hexplore h (List.mem_of_getElem? hedge)
    rw [← hpasses.result] at hfollow
    obtain ⟨u, hu, hpasses'⟩ := ih hfollow (by simp [hms]) (by simpa using hpasses.frames_eq)
    rw [hpasses.result] at hpasses'
    refine ⟨u, ht.trans hu, hpasses'.result, hpasses'.frames_eq, fun k hk => ?_⟩
    rw [hpasses'.low_eq k hk, hpasses.low_eq k hk]

/-- One level of the recursion, from the discovery of a location to the removal of its frame. -/
theorem exists_resumes_edges (hs : s.exploration = x) :
    let r := (next l).foldl (Exploration.follow explore) (x.enter l, x.discovered.length)
    ∃ t, Reaches next (s.visit l) t ∧
      Resumes s (if r.2 = x.discovered.length then r.1.close l else r.1, r.2) t := by
  intro r
  subst hs
  have hlow : (s.visit l).low l = s.exploration.discovered.length := Function.update_self ..
  have hstart := Exploration.follows_enter hx hnew
  have hfollows : Exploration.Follows next s.exploration l ([] ++ next l) r.1 r.2 :=
    Exploration.follows_foldl hnodes hx hl hsub hexplore (List.Subset.refl (next l)) hstart
  rw [← hlow] at hstart
  obtain ⟨t, ht, hpasses⟩ := exists_passes (s := s.visit l) hnodes hx hl hnew hsub hexplore hresumes
    hstart (List.nil_append _).symm rfl
  have hresult : (t.exploration, t.low l) = r := by
    rw [hpasses.result, hlow]
    rfl
  have hleave := reaches_leave hpasses.frames_eq (List.getElem?_eq_none (Nat.le_refl _))
  have hkept : ∀ m ∈ s.exploration.discovered, t.low m = s.low m := fun m hm => by
    have hne : m ≠ l := fun heq => hnew (heq ▸ hm)
    exact (hpasses.low_eq m hm).trans (Function.update_of_ne hne ..)
  have hleft := resumes_leave (s := s) (t := { t with frames := s.frames }) (l := l) rfl hkept
  rw [← hresult] at hfollows ⊢
  rw [idxOf_of_advances hfollows.toAdvances hnew] at hleft
  exact ⟨_, ht.trans hleave, hleft⟩

end Edges

/-- The turns from the discovery of a location to the removal of its frame. The fuel is that of the
recursion, which never runs out. -/
theorem exists_resumes (hnodes : ∀ l, next l ⊆ nodes) {fuel : Nat} (hx : Sound next s.exploration)
    (hl : l ∈ nodes) (hnew : l ∉ s.exploration.discovered)
    (hsub : s.exploration.discovered ⊆ nodes)
    (hfuel : nodes.length < fuel + s.exploration.discovered.length) :
    ∃ t, Reaches next (s.visit l) t ∧ Resumes s (explore next fuel s.exploration l) t := by
  induction fuel generalizing s l with
  | zero =>
    have hlength := hx.nodup.length_le_of_subset hsub
    omega
  | succ fuel ih =>
    exact exists_resumes_edges hnodes hx hl hnew hsub
      (fun y m hy hsub' hlength hm hmem =>
        Exploration.explores_explore hnodes hy hmem hm hsub' (by omega))
      (fun s m hs hsub' hlength hm hmem => ih hs hmem hm hsub' (by omega)) rfl

/-! ## The whole search -/

/-- Where no frame is left, a search from a location goes on as `Exploration.visit` does. -/
theorem exists_runAll (hnodes : ∀ l, next l ⊆ nodes) {fuel : Nat}
    (h : Exploration.Rested next nodes s.exploration) (hframes : s.frames = [])
    (hfuel : nodes.length < fuel) {ls : List Loc} (hls : ls ⊆ nodes) :
    ∃ turns t, t.exploration = ls.foldl (Exploration.visit next fuel) s.exploration ∧
      ∀ more, runAll next (turns + more) ls s = some t := by
  induction ls generalizing s with
  | nil => exact ⟨0, s, rfl, fun more => rfl⟩
  | cons l ls ih =>
    obtain ⟨hl, hls⟩ := List.cons_subset.1 hls
    obtain ⟨hrested, -, -⟩ := h.visit hnodes hl hfuel
    rw [List.foldl_cons]
    by_cases hknown : l ∈ s.exploration.discovered
    · rw [Exploration.visit, if_pos hknown]
      obtain ⟨turns, t, ht, hturns⟩ := ih h hframes hls
      exact ⟨turns, t, ht, fun more => by rw [runAll, if_pos hknown, hturns]⟩
    · rw [Exploration.visit, if_neg hknown] at hrested ⊢
      obtain ⟨u, hu, hresumes⟩ := exists_resumes hnodes h.toSound hl hknown h.subset
        (Nat.lt_of_lt_of_le hfuel (Nat.le_add_right fuel _))
      have hempty : u.frames = [] := hresumes.frames_eq.trans hframes
      rw [← hresumes.exploration_eq] at hrested ⊢
      obtain ⟨turns, hturns⟩ := hu.exists_run hempty
      obtain ⟨turns', t, ht, hturns'⟩ := ih hrested hempty hls
      refine ⟨turns + turns', t, ht, fun more => ?_⟩
      have hturns'' := hturns' (turns + more)
      rw [← Nat.add_assoc, Nat.add_comm turns'] at hturns''
      rw [runAll, if_neg hknown, Nat.add_assoc, hturns, Option.bind_some, ← Nat.add_assoc, hturns'']

end FramedSearch

/-- The search with frames ends, and it finds the components in the order of the recursive one. -/
theorem Automaton.exists_framedComponents (a : Automaton) (nodes : List Loc) :
    ∃ turns, ∀ more, a.framedComponents (turns + more) nodes = some (a.components nodes) := by
  obtain ⟨turns, t, ht, hturns⟩ := FramedSearch.exists_runAll (s := {}) localTargets_subset
    (rested_empty a nodes) rfl (Nat.lt_succ_self nodes.length) (List.Subset.refl nodes)
  refine ⟨turns, fun more => ?_⟩
  rw [framedComponents, hturns, Option.map_some, ht]
  rfl

end LoopInvariant
