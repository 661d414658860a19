import LoopInvariant.Automaton.Json
import LoopInvariant.Proofs.Description
import LoopInvariant.Proofs.JsonText
/-!
# Automata survive being written

An automaton that was read from a text is written as a text that reads as the same automaton. The
text it came from may have looked different: records written as arrays, operators as objects, fields
that are passed over, statements left out. None of this is written back.

The reader opens only so many nested containers, so the written form must not be nested deeper than
what was read. `Term.depth` counts the containers of a written term. Whatever form a term was read
from, it took at least as many, and where there is room for as many it is read back.
-/

namespace LoopInvariant

/-! ## Traversals -/

section Traversal

variable {α β : Type}

theorem exists_of_mapM_eq_some {f : α → Option β} {xs : List α} {ys : List β}
    (h : xs.mapM f = some ys) : ∀ y ∈ ys, ∃ x ∈ xs, f x = some y := by
  induction xs generalizing ys with
  | nil =>
    cases h
    simp
  | cons x xs ih =>
    rw [List.mapM_cons] at h
    simp only [bind, Option.bind_eq_some_iff, pure, Option.some.injEq] at h
    obtain ⟨y, hy, zs, hzs, rfl⟩ := h
    refine List.forall_mem_cons.2 ⟨⟨x, List.mem_cons_self, hy⟩, fun z hz => ?_⟩
    obtain ⟨x', hx', heq⟩ := ih hzs z hz
    exact ⟨x', List.mem_cons_of_mem _ hx', heq⟩

theorem mapM_eq_some_map {f : α → Option β} {g : α → β} {xs : List α}
    (h : ∀ x ∈ xs, f x = some (g x)) : xs.mapM f = some (xs.map g) := by
  induction xs with
  | nil => rfl
  | cons x xs ih =>
    obtain ⟨hx, hxs⟩ := List.forall_mem_cons.1 h
    rw [List.mapM_cons, hx, ih hxs]
    rfl

theorem mapM_map_eq_some {f : α → Option β} {g : β → α} {ys : List β}
    (h : ∀ y ∈ ys, f (g y) = some y) : (ys.map g).mapM f = some ys := by
  have hcomp : ys.mapM (f ∘ g) = some (ys.map id) := mapM_eq_some_map h
  rw [List.mapM_map, hcomp, List.map_id]

end Traversal

/-! ## Records and choices -/

namespace Json

theorem filter_eq_singleton {fs : List (String × Json)} (h : (fs.map (·.1)).Nodup)
    {f : String × Json} (hf : f ∈ fs) : fs.filter (fun g => g.1 = f.1) = [f] := by
  induction fs with
  | nil => cases hf
  | cons g fs ih =>
    rw [List.map_cons, List.nodup_cons] at h
    rcases List.mem_cons.1 hf with rfl | hf
    · have hnone : fs.filter (fun g => g.1 = f.1) = [] := by
        apply List.filter_eq_nil_iff.2
        intro g hg heq
        rw [decide_eq_true_eq] at heq
        exact h.1 (heq ▸ List.mem_map_of_mem hg)
      rw [List.filter_cons_of_pos (by simp), hnone]
    · have hne : g.1 ≠ f.1 := fun heq => h.1 (heq ▸ List.mem_map_of_mem hf)
      rw [List.filter_cons_of_neg (by simpa using hne), ih h.2 hf]

theorem record?_fields (fs : List (String × Json)) (h : (fs.map (·.1)).Nodup) :
    (fields fs).record? (fs.map (·.1)) = some (fs.map fun f => some f.2) := by
  have hkeys : (fs.map fun f => (some f.1, f.2)).mapM
      (fun f : Option String × Json => f.1.map fun k => (k, f.2)) = some fs :=
    mapM_map_eq_some fun f _ => rfl
  simp only [fields, record?, hkeys]
  rw [List.mapM_map]
  apply mapM_eq_some_map
  intro f hf
  simp only [Function.comp_apply, filter_eq_singleton h hf]

theorem plain_fields {fs : List (String × Json)} (h : ∀ f ∈ fs, Plain f.2) : Plain (fields fs) := by
  apply Plain.object
  · exact List.forall_mem_map.2 fun f _ => rfl
  · exact List.forall_mem_map.2 h

theorem plain_tagged {tag : String} {j : Json} (h : Plain j) : Plain (tagged tag j) :=
  plain_fields (List.forall_mem_singleton.2 h)

theorem plain_map {α : Type} {write : α → Json} (h : ∀ x, Plain (write x)) (xs : List α) :
    Plain (.array (xs.map write)) :=
  .array (List.forall_mem_map.2 fun x _ => h x)

theorem choice?_nameOf {α : Type} [DecidableEq α] {choices : List (String × α)}
    (hnames : (choices.map (·.1)).Nodup) {a : α} (ha : a ∈ choices.map (·.2)) (room : Nat) :
    (nameOf choices a).choice? room choices = some a := by
  cases hfind : choices.find? (fun c => c.2 = a) with
  | none =>
    obtain ⟨c, hc, heq⟩ := List.mem_map.1 ha
    exact absurd (decide_eq_true heq) (List.find?_eq_none.1 hfind c hc)
  | some c =>
    have heq : c.2 = a := by simpa using List.find?_some hfind
    obtain ⟨before, after, hsplit⟩ := List.append_of_mem (List.mem_of_find?_eq_some hfind)
    simp only [nameOf, hfind, Option.map_some, Option.getD_some, str, choice?]
    refine List.lookup_eq_some_iff.2 ⟨before, after, heq ▸ hsplit, fun b hb => ?_⟩
    rw [hsplit, List.map_append, List.nodup_append] at hnames
    have hne : b.1 ≠ c.1 := hnames.2.2 b.1 (List.mem_map_of_mem hb) c.1 (by simp)
    simpa using hne.symm

theorem mem_of_choice? {α : Type} {room : Nat} {choices : List (String × α)} {j : Json} {a : α}
    (h : j.choice? room choices = some a) : a ∈ choices.map (·.2) := by
  have hlookup : ∀ s, choices.lookup s = some a → a ∈ choices.map (·.2) := by
    intro s hs
    obtain ⟨before, after, hsplit, -⟩ := List.lookup_eq_some_iff.1 hs
    rw [hsplit]
    simp
  rw [choice?.eq_def] at h
  split at h
  · exact hlookup _ h
  · split at h
    · cases h
    · exact hlookup _ h
  · cases h

theorem list?_map {α : Type} {read : Nat → Json → Option α} {write : α → Json} {room : Nat} {j : Json}
    {xs : List α} (h : j.list? read room = some xs)
    (hitem : ∀ {n y x}, room = n + 1 → read n y = some x → read n (write x) = some x) :
    (Json.array (xs.map write)).list? read room = some xs := by
  rw [list?.eq_def] at h
  split at h
  · next room ys =>
    apply mapM_map_eq_some
    intro x hx
    obtain ⟨y, -, hy⟩ := exists_of_mapM_eq_some h x hx
    exact hitem rfl hy
  · cases h

end Json

/-! ## Terms -/

namespace Term

mutual

def depth : Term → Nat
  | lit _ | int _ | var _ => 1
  | not t | neg t => depth t + 2
  | bin _ l r | arith _ l r | rel _ l r => max (depth l) (depth r) + 2
  | nary _ ts => depthList ts + 3
  | ite c t e => max (depth c) (max (depth t) (depth e)) + 2

def depthList : List Term → Nat
  | [] => 0
  | t :: ts => max (depth t) (depthList ts)

end

theorem depthList_le {ts : List Term} {n : Nat} : depthList ts ≤ n ↔ ∀ t ∈ ts, t.depth ≤ n := by
  induction ts with
  | nil => simp [depthList]
  | cons t ts ih => rw [depthList, Nat.max_le, ih, List.forall_mem_cons]

theorem depth_le_of_negation {room : Nat} {op : Option (Term → Term)} {operand : Option Term}
    {t : Term} (hop : ∀ f, op = some f → f ∈ negationChoices.map (·.2))
    (hoperand : ∀ u, operand = some u → u.depth ≤ room)
    (h : (do let f ← op; let u ← operand; return f u) = some t) : t.depth ≤ room + 2 := by
  simp only [bind, Option.bind_eq_some_iff, pure, Option.some.injEq] at h
  obtain ⟨f, hf, u, hu, rfl⟩ := h
  have hdepth : (f u).depth = u.depth + 2 := by
    have hmem := hop f hf
    simp only [negationChoices, List.map_cons, List.map_nil, List.mem_cons, List.not_mem_nil,
      or_false] at hmem
    rcases hmem with rfl | rfl
    · rfl
    · rfl
  have hu := hoperand u hu
  omega

theorem depth_le_of_binary {α : Type} {make : α → Term → Term → Term}
    (hmake : ∀ op l r, (make op l r).depth = max l.depth r.depth + 2) {room : Nat}
    {op : Option α} {left right : Option Term} {t : Term}
    (hleft : ∀ l, left = some l → l.depth ≤ room) (hright : ∀ r, right = some r → r.depth ≤ room)
    (h : (do let op ← op; let l ← left; let r ← right; return make op l r) = some t) :
    t.depth ≤ room + 2 := by
  simp only [bind, Option.bind_eq_some_iff, pure, Option.some.injEq] at h
  obtain ⟨op, -, l, hl, r, hr, rfl⟩ := h
  have hl := hleft l hl
  have hr := hright r hr
  rw [hmake]
  omega

/-- In whatever form a term is read, it takes as much room as its written form. -/
theorem depth_le_of_ofJson? {room : Nat} {j : Json} {t : Term} (h : ofJson? room j = some t) :
    t.depth ≤ room := by
  induction room using Nat.strongRecOn generalizing j t with
  | _ room ih =>
    rw [ofJson?.eq_def] at h
    split at h
    · split at h
      · cases h
      · next room =>
        split at h
        · obtain ⟨b, -, rfl⟩ := Option.map_eq_some_iff.1 h
          exact Nat.succ_pos room
        · obtain ⟨i, -, rfl⟩ := Option.map_eq_some_iff.1 h
          exact Nat.succ_pos room
        · obtain ⟨x, -, rfl⟩ := Option.map_eq_some_iff.1 h
          exact Nat.succ_pos room
        -- from here on the body is a container of its own
        · split at h
          · cases h
          · next room =>
            exact depth_le_of_negation (fun _ => Json.mem_of_choice?) (fun _ => ih room (by omega)) h
        · split at h
          · cases h
          · next room =>
            exact depth_le_of_binary (fun _ _ _ => rfl) (fun _ => ih room (by omega))
              (fun _ => ih room (by omega)) h
        · split at h
          · cases h
          · next room =>
            exact depth_le_of_binary (fun _ _ _ => rfl) (fun _ => ih room (by omega))
              (fun _ => ih room (by omega)) h
        · split at h
          · cases h
          · next room =>
            exact depth_le_of_binary (fun _ _ _ => rfl) (fun _ => ih room (by omega))
              (fun _ => ih room (by omega)) h
        · split at h
          · next room =>
            simp only [bind, Option.bind_eq_some_iff, pure, Option.some.injEq] at h
            obtain ⟨op, -, ts, hts, rfl⟩ := h
            have hdepth : depthList ts ≤ room := by
              apply depthList_le.2
              intro t ht
              obtain ⟨j, -, hj⟩ := exists_of_mapM_eq_some hts t ht
              exact ih room (by omega) hj
            rw [depth]
            omega
          · cases h
        · split at h
          · cases h
          · next room =>
            simp only [bind, Option.bind_eq_some_iff, pure] at h
            obtain ⟨fs, -, h⟩ := h
            split at h
            · simp only [Option.bind_eq_some_iff, Option.some.injEq] at h
              obtain ⟨c, hc, t, ht, e, he, rfl⟩ := h
              have hc := ih room (by omega) hc
              have ht := ih room (by omega) ht
              have he := ih room (by omega) he
              rw [depth]
              omega
            · cases h
        · cases h
    · cases h

theorem exists_room {room depth n : Nat} (h : depth + n ≤ room) :
    ∃ m, room = m + n ∧ depth ≤ m :=
  ⟨room - n, by omega, by omega⟩

mutual

theorem ofJson?_toJson : ∀ (t : Term) (room : Nat), t.depth ≤ room →
    ofJson? room t.toJson = some t
  | lit _, room, h | var _, room, h => by
    obtain ⟨room, rfl⟩ := Nat.exists_eq_add_of_le' (show 1 ≤ room from h)
    rfl
  | int i, room, h => by
    obtain ⟨room, rfl⟩ := Nat.exists_eq_add_of_le' (show 1 ≤ room from h)
    simp only [toJson, Json.tagged, Json.fields, List.map_cons, List.map_nil, ofJson?, Json.int64?,
      checkedInt64_toInt, Option.map_some]
  | not t, room, h | neg t, room, h => by
    obtain ⟨room, rfl, hdepth⟩ := exists_room h
    have ht := ofJson?_toJson t room hdepth
    simp only [toJson, Json.tagged, Json.fields, List.map_cons, List.map_nil, ofJson?, ht]
    rfl
  | bin op l r, room, h => by
    obtain ⟨room, rfl, hdepth⟩ := exists_room h
    have hop : (nameOf Connective.choices op).choice? room Connective.choices = some op :=
      Json.choice?_nameOf (by decide) (by cases op <;> decide) room
    have hl := ofJson?_toJson l room (by omega)
    have hr := ofJson?_toJson r room (by omega)
    simp only [toJson, Json.tagged, Json.fields, List.map_cons, List.map_nil, ofJson?, hop, hl, hr]
    rfl
  | arith op l r, room, h => by
    obtain ⟨room, rfl, hdepth⟩ := exists_room h
    have hop : (nameOf Arith.choices op).choice? room Arith.choices = some op :=
      Json.choice?_nameOf (by decide) (by cases op <;> decide) room
    have hl := ofJson?_toJson l room (by omega)
    have hr := ofJson?_toJson r room (by omega)
    simp only [toJson, Json.tagged, Json.fields, List.map_cons, List.map_nil, ofJson?, hop, hl, hr]
    rfl
  | rel op l r, room, h => by
    obtain ⟨room, rfl, hdepth⟩ := exists_room h
    have hop : (nameOf Relation.choices op).choice? room Relation.choices = some op :=
      Json.choice?_nameOf (by decide) (by cases op <;> decide) room
    have hl := ofJson?_toJson l room (by omega)
    have hr := ofJson?_toJson r room (by omega)
    simp only [toJson, Json.tagged, Json.fields, List.map_cons, List.map_nil, ofJson?, hop, hl, hr]
    rfl
  | nary op ts, room, h => by
    obtain ⟨room, rfl, hdepth⟩ := exists_room h
    have hop : (nameOf Junction.choices op).choice? (room + 1) Junction.choices = some op :=
      Json.choice?_nameOf (by decide) (by cases op <;> decide) (room + 1)
    have hts := mapM_listToJson ts room hdepth
    simp only [toJson, Json.tagged, Json.fields, List.map_cons, List.map_nil, ofJson?, hop, hts]
    rfl
  | ite c t e, room, h => by
    obtain ⟨room, rfl, hdepth⟩ := exists_room h
    have hrecord := Json.record?_fields
      [("cond", c.toJson), ("then", t.toJson), ("else_", e.toJson)] (by simp)
    have hc := ofJson?_toJson c room (by omega)
    have ht := ofJson?_toJson t room (by omega)
    have he := ofJson?_toJson e room (by omega)
    simp only [Json.fields, List.map_cons, List.map_nil] at hrecord
    simp only [toJson, Json.tagged, Json.fields, List.map_cons, List.map_nil, ofJson?, hrecord]
    simp only [bind, Option.bind_some, hc, ht, he]
    rfl

theorem mapM_listToJson : ∀ (ts : List Term) (room : Nat), depthList ts ≤ room →
    (listToJson ts).mapM (ofJson? room) = some ts
  | [], _, _ => rfl
  | t :: ts, room, h => by
    rw [depthList] at h
    rw [listToJson, List.mapM_cons, ofJson?_toJson t room (by omega),
      mapM_listToJson ts room (by omega)]
    rfl

end

theorem ofJson?_rewritten {room : Nat} {j : Json} {t : Term} (h : ofJson? room j = some t) :
    ofJson? room t.toJson = some t :=
  ofJson?_toJson t room (depth_le_of_ofJson? h)

mutual

theorem plain_toJson : ∀ t : Term, t.toJson.Plain
  | lit b => Json.plain_tagged (.bool b)
  | int i => Json.plain_tagged (.int i.toInt)
  | var x => Json.plain_tagged (.str x)
  | not t | neg t => by
    apply Json.plain_tagged
    apply Json.Plain.array
    simp only [List.forall_mem_cons]
    exact ⟨.str _, plain_toJson t, by simp⟩
  | bin _ l r | arith _ l r | rel _ l r => by
    apply Json.plain_tagged
    apply Json.Plain.array
    simp only [List.forall_mem_cons]
    exact ⟨.str _, plain_toJson l, plain_toJson r, by simp⟩
  | nary _ ts => by
    apply Json.plain_tagged
    apply Json.Plain.array
    simp only [List.forall_mem_cons]
    exact ⟨.str _, .array (plain_listToJson ts), by simp⟩
  | ite c t e => by
    apply Json.plain_tagged
    apply Json.plain_fields
    simp only [List.forall_mem_cons]
    exact ⟨plain_toJson c, plain_toJson t, plain_toJson e, by simp⟩

theorem plain_listToJson : ∀ ts : List Term, ∀ j ∈ listToJson ts, j.Plain
  | [] => by simp [listToJson]
  | t :: ts => List.forall_mem_cons.2 ⟨plain_toJson t, plain_listToJson ts⟩

end

end Term

/-! ## Descriptions -/

theorem Statement.ofJson?_rewritten {room : Nat} {j : Json} {st : Statement}
    (h : ofJson? room j = some st) : ofJson? room st.toJson = some st := by
  rw [ofJson?.eq_def] at h
  split at h
  · simp only [bind, Option.bind_eq_some_iff, pure, Option.some.injEq] at h
    obtain ⟨x, -, t, ht, rfl⟩ := h
    simp only [toJson, Json.tagged, Json.fields, List.map_cons, List.map_nil, ofJson?,
      Term.ofJson?_rewritten ht]
    rfl
  · obtain ⟨t, ht, rfl⟩ := Option.map_eq_some_iff.1 h
    simp only [toJson, Json.tagged, Json.fields, List.map_cons, List.map_nil, ofJson?,
      Term.ofJson?_rewritten ht, Option.map_some]
  · obtain ⟨x, -, rfl⟩ := Option.map_eq_some_iff.1 h
    simp only [toJson, Json.tagged, Json.fields, List.map_cons, List.map_nil, ofJson?, Json.str,
      Json.string?, Option.map_some]
  · cases h

theorem Statement.plain_toJson (st : Statement) : st.toJson.Plain := by
  cases st with
  | assign x t =>
    apply Json.plain_tagged
    apply Json.Plain.array
    simp only [List.forall_mem_cons]
    exact ⟨.str x, t.plain_toJson, by simp⟩
  | assume t => exact Json.plain_tagged t.plain_toJson
  | havoc x => exact Json.plain_tagged (.str x)

theorem VarDecl.ofJson?_toJson (d : VarDecl) (room : Nat) :
    ofJson? (room + 1) d.toJson = some d := by
  have hrecord := Json.record?_fields
    [("name", .str d.name), ("sort", nameOf VarSort.choices d.sort)] (by simp)
  have hsort : (nameOf VarSort.choices d.sort).choice? room VarSort.choices = some d.sort :=
    Json.choice?_nameOf (by decide) (by cases d.sort <;> decide) room
  simp only [List.map_cons, List.map_nil] at hrecord
  simp only [toJson, ofJson?, hrecord, bind, Option.bind_some, hsort]
  rfl

theorem VarDecl.ofJson?_rewritten {room : Nat} {j : Json} {d : VarDecl}
    (h : ofJson? room j = some d) : ofJson? room d.toJson = some d := by
  cases room with
  | zero => cases h
  | succ room => exact d.ofJson?_toJson room

/-- An edge needs room for the list of its statements, also if it was read from a form that leaves
them out. -/
theorem EdgeDescription.ofJson?_rewritten {room : Nat} {j : Json} {e : EdgeDescription}
    (h : ofJson? (room + 2) j = some e) : ofJson? (room + 2) e.toJson = some e := by
  rw [ofJson?] at h
  split at h
  · next source target stmts hfields =>
    simp only [bind, Option.bind_eq_some_iff, pure] at h
    obtain ⟨source, -, target, -, h⟩ := h
    have hstmts : ∃ stmts, e = ⟨source, target, stmts⟩ ∧
        (Json.array (stmts.map Statement.toJson)).list? Statement.ofJson? (room + 1) =
          some stmts := by
      split at h
      · cases h
        exact ⟨[], rfl, rfl⟩
      · obtain ⟨stmts, hstmts, heq⟩ := Option.bind_eq_some_iff.1 h
        cases heq
        exact ⟨stmts, rfl, Json.list?_map hstmts fun _ => Statement.ofJson?_rewritten⟩
    obtain ⟨stmts, rfl, hlist⟩ := hstmts
    have hrecord := Json.record?_fields [("from", .str source), ("to", .str target),
      ("stmts", .array (stmts.map Statement.toJson))] (by simp)
    simp only [List.map_cons, List.map_nil] at hrecord
    simp only [toJson, ofJson?, hrecord, bind, Option.bind_some, hlist]
    rfl
  · cases h

namespace Description

theorem ofJson?_rewritten {room : Nat} {j : Json} {d : Description}
    (h : ofJson? (room + 4) j = some d) : ofJson? (room + 4) d.toJson = some d := by
  rw [ofJson?] at h
  split at h
  · simp only [bind, Option.bind_eq_some_iff, pure, Option.some.injEq] at h
    obtain ⟨decls, hdecls, locations, hlocations, entry, -, error, -, edges, hedges, rfl⟩ := h
    have hrecord := Json.record?_fields [("variables", .array (decls.map VarDecl.toJson)),
      ("locations", .array (locations.map Json.str)), ("entry", .str entry), ("error", .str error),
      ("edges", .array (edges.map EdgeDescription.toJson))] (by simp)
    have hdecls := Json.list?_map hdecls fun _ => VarDecl.ofJson?_rewritten
    have hlocations : (Json.array (locations.map Json.str)).list? (fun _ => Json.string?)
        (room + 3) = some locations := Json.list?_map hlocations fun _ _ => rfl
    have hedges : (Json.array (edges.map EdgeDescription.toJson)).list? EdgeDescription.ofJson?
        (room + 3) = some edges := by
      apply Json.list?_map hedges
      intro n y e hn he
      cases hn
      exact EdgeDescription.ofJson?_rewritten he
    simp only [List.map_cons, List.map_nil] at hrecord
    simp only [toJson, ofJson?, hrecord, bind, Option.bind_some, hdecls, hlocations, hedges]
    rfl
  · cases h

theorem plain_toJson (d : Description) : d.toJson.Plain := by
  have hdecls : ∀ v : VarDecl, v.toJson.Plain := by
    intro v
    apply Json.plain_fields
    simp only [List.forall_mem_cons]
    exact ⟨.str _, .str _, by simp⟩
  have hedges : ∀ e : EdgeDescription, e.toJson.Plain := by
    intro e
    apply Json.plain_fields
    simp only [List.forall_mem_cons]
    exact ⟨.str _, .str _, Json.plain_map Statement.plain_toJson e.stmts, by simp⟩
  apply Json.plain_fields
  simp only [List.forall_mem_cons]
  exact ⟨Json.plain_map hdecls d.decls, Json.plain_map .str d.locations, .str _, .str _,
    Json.plain_map hedges d.edges, by simp⟩

/-- A description that was read is written as a text that reads as the same description. -/
theorem read?_pretty_toJson {text : String} {d : Description} (h : read? text = some d) :
    read? d.toJson.pretty = some d := by
  obtain ⟨j, -, hj⟩ := Option.bind_eq_some_iff.1 h
  have hread : Json.read? d.toJson.pretty = some d.toJson := Json.read?_pretty d.plain_toJson
  apply Option.bind_eq_some_iff.2
  exact ⟨_, hread, ofJson?_rewritten hj⟩

end Description

/-! ## Automata -/

namespace Automaton

theorem read_eq_ok {text : String} {a : Automaton} :
    read text = .ok a ↔ ∃ d, Description.read? text = some d ∧ ofDescription d = .ok a := by
  rw [read]
  cases Description.read? text with
  | none => simp
  | some d =>
    simp only [Option.some.injEq, exists_eq_left']
    cases ofDescription d with
    | ok b => simp
    | error e => simp

end Automaton

/-- An automaton that was read has the description of the text, and writing it gives a text that reads
as the same automaton. So the description is kept, and writing again gives the same text. -/
theorem written_automaton_is_read_back {text : String} {a : Automaton}
    (h : Automaton.read text = .ok a) :
    Description.read? text = some a.describe ∧ Automaton.read a.write = .ok a ∧
      ∀ b, Automaton.read a.write = .ok b → b.describe = a.describe ∧ b.write = a.write := by
  obtain ⟨d, hd, ha⟩ := Automaton.read_eq_ok.1 h
  have hdescribe := Automaton.describe_of_ofDescription ha
  have hwritten : Automaton.read a.write = .ok a := by
    apply Automaton.read_eq_ok.2
    refine ⟨d, ?_, ha⟩
    rw [Automaton.write, hdescribe]
    exact Description.read?_pretty_toJson hd
  refine ⟨hdescribe ▸ hd, hwritten, fun b hb => ?_⟩
  cases hwritten.symm.trans hb
  exact ⟨rfl, rfl⟩

/-- A text with records written as arrays, an escaped letter, an edge without statements and the least
integer. -/
def terseText : String :=
  "\x7b\"locations\":[\"é\"],\"entry\":\"\\u00e9\",\"error\":\"é\",\"variables\":[[\"x\",\"Int\"]],
\"edges\":[[\"é\",\"é\"],[\"é\",\"é\",[\x7b\"Assign\":[\"x\",\x7b\"Int\":-9223372036854775808\x7d]\x7d]]]\x7d"

def terse : Automaton where
  decls := [⟨"x", .int⟩]
  locations := ["é"]
  entry := 0
  error := 0
  edges := [⟨0, 0, []⟩, ⟨0, 0, [.assign "x" (.int (-9223372036854775808))]⟩]

theorem terse_is_read_back :
    Automaton.read terseText = .ok terse ∧ Automaton.read terse.write = .ok terse := by
  have hread : (Automaton.read terseText).toOption = some terse := by decide +kernel
  have hread := toOption_eq_some_iff.1 hread
  exact ⟨hread, (written_automaton_is_read_back hread).2.1⟩

end LoopInvariant
