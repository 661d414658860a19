import LoopInvariant.Proofs.Evaluation
import LoopInvariant.Proofs.Version
import Mathlib.Data.List.Nodup
/-!
# Renamed terms

Renaming changes the names in a term and nothing else, so whatever finds the names again finds the
term again. A version is such a name: what stands before its last `@` is its variable. Terms at
versions are therefore equal only if they are the same term with every variable at the same version,
and no two variables of a term become one.
-/

namespace LoopInvariant

namespace Term

mutual

theorem occurrences_rename (f : String → String) :
    ∀ t : Term, (t.rename f).occurrences = t.occurrences.map f
  | lit _ | int _ | var _ => rfl
  | not t | neg t => occurrences_rename f t
  | bin _ l r | arith _ l r | rel _ l r => by
    simp [rename, occurrences, occurrences_rename f l, occurrences_rename f r]
  | nary _ ts => occurrencesList_renameList f ts
  | ite c t e => by
    simp [rename, occurrences, occurrences_rename f c, occurrences_rename f t,
      occurrences_rename f e]

theorem occurrencesList_renameList (f : String → String) :
    ∀ ts : List Term, occurrencesList (renameList f ts) = (occurrencesList ts).map f
  | [] => rfl
  | t :: ts => by
    rw [renameList, occurrencesList, occurrencesList, List.map_append, occurrences_rename f t,
      occurrencesList_renameList f ts]

end

mutual

theorem rename_rename {f g h : String → String} :
    ∀ t : Term, (∀ x ∈ t.occurrences, g (f x) = h x) → (t.rename f).rename g = t.rename h
  | lit _, _ | int _, _ => rfl
  | var x, hx => congrArg var (hx x (by simp [occurrences]))
  | not t, ht | neg t, ht => by
    simp only [occurrences] at ht
    simp only [rename, rename_rename t ht]
  | bin _ l r, ht | arith _ l r, ht | rel _ l r, ht => by
    simp only [occurrences, List.mem_append] at ht
    simp only [rename, rename_rename l fun x hx => ht x (.inl hx),
      rename_rename r fun x hx => ht x (.inr hx)]
  | nary _ ts, ht => by
    simp only [occurrences] at ht
    simp only [rename, renameList_renameList ts ht]
  | ite c t e, ht => by
    simp only [occurrences, List.mem_append] at ht
    simp only [rename, rename_rename c fun x hx => ht x (.inl (.inl hx)),
      rename_rename t fun x hx => ht x (.inl (.inr hx)),
      rename_rename e fun x hx => ht x (.inr hx)]

theorem renameList_renameList {f g h : String → String} :
    ∀ ts : List Term, (∀ x ∈ occurrencesList ts, g (f x) = h x) →
      renameList g (renameList f ts) = renameList h ts
  | [], _ => rfl
  | t :: ts, ht => by
    simp only [occurrencesList, List.mem_append] at ht
    simp only [renameList, rename_rename t fun x hx => ht x (.inl hx),
      renameList_renameList ts fun x hx => ht x (.inr hx)]

end

mutual

theorem rename_id : ∀ t : Term, t.rename id = t
  | lit _ | int _ | var _ => rfl
  | not t | neg t => by rw [rename, rename_id t]
  | bin _ l r | arith _ l r | rel _ l r => by rw [rename, rename_id l, rename_id r]
  | nary _ ts => by rw [rename, renameList_id ts]
  | ite c t e => by rw [rename, rename_id c, rename_id t, rename_id e]

theorem renameList_id : ∀ ts : List Term, renameList id ts = ts
  | [] => rfl
  | t :: ts => by rw [renameList, rename_id t, renameList_id ts]

end

theorem rename_congr {f g : String → String} {t : Term} (h : ∀ x ∈ t.occurrences, f x = g x) :
    t.rename f = t.rename g :=
  calc t.rename f = (t.rename id).rename f := by rw [rename_id]
    _ = t.rename g := rename_rename t h

theorem rename_of_undoes {f g : String → String} {t : Term}
    (h : ∀ x ∈ t.occurrences, g (f x) = x) : (t.rename f).rename g = t :=
  (rename_rename t h).trans t.rename_id

theorem nodup_vars (t : Term) : t.vars.Nodup := SortedSet.nodup_toList _

end Term

/-! ## Versions -/

theorem exists_variable_of_versioned :
    ∃ variableOf : String → String, ∀ x k, variableOf (versioned x k) = x := by
  refine ⟨fun n => ((splitAtLast n.toList).map fun p => String.ofList p.1).getD n, fun x k => ?_⟩
  simp [splitAtLast_versioned]

namespace Indexing

variable {ix ix' : Indexing} {s t : Term}

theorem name_eq_name_iff {x y : String} :
    ix.name x = ix'.name y ↔ x = y ∧ ix.get x = ix'.get y :=
  versioned_inj

theorem occurrences_instantiate (ix : Indexing) (t : Term) :
    (ix.instantiate t).occurrences = t.occurrences.map ix.name :=
  t.occurrences_rename ix.name

theorem mem_occurrences_instantiate {x : String} (h : x ∈ (ix.instantiate t).occurrences) :
    ∃ y ∈ t.vars, x = ix.name y := by
  rw [occurrences_instantiate] at h
  obtain ⟨y, hy, rfl⟩ := List.mem_map.1 h
  exact ⟨y, Term.mem_vars_iff.2 hy, rfl⟩

theorem instantiate_eq_instantiate_iff :
    ix.instantiate s = ix'.instantiate t ↔ s = t ∧ ∀ x ∈ s.vars, ix.get x = ix'.get x := by
  constructor
  · intro h
    obtain ⟨variableOf, hvariable⟩ := exists_variable_of_versioned
    have hst : s = t :=
      calc s = (ix.instantiate s).rename variableOf :=
            (Term.rename_of_undoes fun x _ => hvariable x _).symm
        _ = (ix'.instantiate t).rename variableOf := by rw [h]
        _ = t := Term.rename_of_undoes fun x _ => hvariable x _
    subst hst
    have hnames := congrArg Term.occurrences h
    rw [occurrences_instantiate, occurrences_instantiate, List.map_inj_left] at hnames
    exact ⟨rfl, fun x hx => (name_eq_name_iff.1 (hnames x (Term.mem_vars_iff.1 hx))).2⟩
  · rintro ⟨rfl, hversions⟩
    refine Term.rename_congr fun x hx => ?_
    exact name_eq_name_iff.2 ⟨rfl, hversions x (Term.mem_vars_iff.2 hx)⟩

theorem vars_instantiate_perm (ix : Indexing) (t : Term) :
    (ix.instantiate t).vars.Perm (t.vars.map ix.name) := by
  have hnodup : (t.vars.map ix.name).Nodup :=
    t.nodup_vars.map fun x y h => (name_eq_name_iff.1 h).1
  refine (List.perm_ext_iff_of_nodup (Term.nodup_vars _) hnodup).2 fun n => ?_
  rw [Term.mem_vars_iff, occurrences_instantiate, List.mem_map, List.mem_map]
  simp only [Term.mem_vars_iff]

end Indexing

/-- A versioned name splits back into its variable and its version, whatever the name of the
variable looks like. So names of different variables or versions differ, and no two of them are
identified in terms: terms at versions are equal only if they are the same term with every variable
at the same version, and all variables of a term stay apart. -/
theorem versions_split_back (x y : String) (j k : Nat) (ix ix' : Indexing) (s t : Term) :
    (k < 18446744073709551616 → unversioned? (versioned x k) = some (x, k)) ∧
      (versioned x j = versioned y k → x = y ∧ j = k) ∧
      (ix.name x = ix'.name y → x = y ∧ ix.get x = ix'.get y) ∧
      (ix.instantiate s = ix'.instantiate t ↔ s = t ∧ ∀ z ∈ s.vars, ix.get z = ix'.get z) ∧
      (ix.instantiate s).vars.Perm (s.vars.map ix.name) := by
  refine ⟨fun hk => ?_, versioned_inj.1, Indexing.name_eq_name_iff.1,
    Indexing.instantiate_eq_instantiate_iff, ix.vars_instantiate_perm s⟩
  rw [unversioned?_versioned, if_pos hk]

/-- A variable whose name looks like a version is told from the version it looks like, and the last
version is read back. -/
theorem look_alikes_split_back :
    (unversioned? (versioned "a@1" 18446744073709551615) = some ("a@1", 18446744073709551615) ∧
      versioned "a@1" 0 ≠ versioned "a" 10) ∧
      (Indexing.initial.bump "a").instantiate (.rel .lt (.var "a") (.var "a@1")) ≠
        Indexing.initial.instantiate (.rel .lt (.var "a") (.var "a@1")) := by
  obtain ⟨hsplit, -, -, hterm, -⟩ := versions_split_back "a@1" "a" 0 18446744073709551615
    (Indexing.initial.bump "a") .initial (.rel .lt (.var "a") (.var "a@1"))
    (.rel .lt (.var "a") (.var "a@1"))
  refine ⟨⟨hsplit (by decide), fun h => ?_⟩, fun h => ?_⟩
  · obtain ⟨-, hinj, -⟩ := versions_split_back "a@1" "a" 0 10 .initial .initial (.lit true) (.lit true)
    exact absurd (hinj h).1 (by decide)
  · have hversion := (hterm.1 h).2 "a" (by decide +kernel)
    exact absurd hversion (by decide +kernel)

end LoopInvariant
