import Mathlib.Order.Monotone.Basic
import PiecewiseLinear.Expr.Terms

/-! # Finite maps

Insertion, removal and lookup are told by what they do to the list of entries. A renaming of the
keys that keeps their order goes along with all of them.
-/

namespace PiecewiseLinear

variable {γ : Type} {entries : List (VarId × γ)} {terms : Terms γ} {v w : VarId} {c : γ}

section Lookup

theorem Entries.lookup_cons {d : γ} {rest : List (VarId × γ)} :
    ((v, d) :: rest).lookup w = if w = v then some d else rest.lookup w := by
  by_cases h : w = v
  · rw [h, List.lookup_cons_self, if_pos rfl]
  · rw [List.lookup_cons, beq_false_of_ne h, if_neg h]

theorem Entries.lookup_insert {entries : List (VarId × γ)} :
    (Entries.insert v c entries).lookup w = if w = v then some c else entries.lookup w := by
  induction entries with
  | nil => exact lookup_cons
  | cons head rest ih =>
    obtain ⟨u, d⟩ := head
    unfold Entries.insert
    split
    · exact lookup_cons
    · split
      · rename_i hvu
        rw [hvu, lookup_cons, lookup_cons]
        split <;> rfl
      · rename_i hne
        rw [lookup_cons, lookup_cons, ih]
        by_cases hu : w = u
        · rw [if_pos hu, if_pos hu, if_neg fun hv => hne (hv.symm.trans hu)]
        · rw [if_neg hu, if_neg hu]

theorem Terms.get?_insert : (terms.insert v c).get? w = if w = v then some c else terms.get? w :=
  Entries.lookup_insert

theorem Terms.get?_erase : (terms.erase v).get? w = if w = v then none else terms.get? w := by
  change (Entries.erase v terms.entries).lookup w = _
  unfold get? Entries.erase
  induction terms.entries with
  | nil => exact (ite_self none).symm
  | cons head rest ih =>
    obtain ⟨u, d⟩ := head
    by_cases hu : u = v
    · rw [List.filter_cons_of_neg (by simp [hu]), ih, Entries.lookup_cons, hu]
      split <;> rfl
    · rw [List.filter_cons_of_pos (by simpa using hu), Entries.lookup_cons, ih,
        Entries.lookup_cons]
      by_cases hw : w = u
      · rw [if_pos hw, if_pos hw, if_neg fun h => hu (hw.symm.trans h)]
      · rw [if_neg hw, if_neg hw]

theorem Terms.get?_of_mem {e : VarId × γ} (h : e ∈ terms.entries) :
    terms.get? e.1 = some e.2 := by
  obtain ⟨entries, hascending⟩ := terms
  change entries.lookup e.1 = some e.2
  change e ∈ entries at h
  induction entries with
  | nil => cases h
  | cons head rest ih =>
    obtain ⟨hfirst, hrest⟩ := List.pairwise_cons.mp hascending
    rw [Entries.lookup_cons]
    rcases List.mem_cons.mp h with rfl | h
    · exact if_pos rfl
    · rw [if_neg (Nat.ne_of_gt (hfirst e h)), ih hrest h]

theorem Terms.get?_foldl_insert_eq_none_iff :
    (entries.foldl (fun terms e => terms.insert e.1 e.2) terms).get? v = none ↔
      v ∉ entries.map Prod.fst ∧ terms.get? v = none := by
  induction entries generalizing terms with
  | nil => simp
  | cons e rest ih =>
    rw [List.foldl_cons, ih, get?_insert, List.map_cons, List.mem_cons]
    by_cases he : v = e.1 <;> simp [he]

theorem Terms.mem_of_get?_foldl_insert
    (h : (entries.foldl (fun terms e => terms.insert e.1 e.2) terms).get? v = some c) :
    (v, c) ∈ entries ∨ terms.get? v = some c := by
  induction entries generalizing terms with
  | nil => exact Or.inr h
  | cons e rest ih =>
    rcases ih h with hmem | hget
    · exact Or.inl (List.mem_cons_of_mem _ hmem)
    · rw [get?_insert] at hget
      split at hget
      · rename_i he
        obtain rfl := Option.some.inj hget
        exact Or.inl (he ▸ List.mem_cons_self)
      · exact Or.inr hget

theorem Terms.mem_of_get?_ofEntries (h : (ofEntries entries).get? v = some c) :
    (v, c) ∈ entries :=
  (mem_of_get?_foldl_insert h).resolve_right nofun

theorem Terms.get?_ofEntries {entries : List (VarId × Nat)} (h : ∀ e ∈ entries, e.1 = e.2)
    (hv : v ∈ entries.map Prod.fst) : (Terms.ofEntries entries).get? v = some v := by
  cases hget : (Terms.ofEntries entries).get? v with
  | none => exact absurd hv (get?_foldl_insert_eq_none_iff.mp hget).1
  | some c => exact congrArg some (h (v, c) (mem_of_get?_ofEntries hget)).symm

end Lookup

section Order

theorem Terms.ext {terms terms' : Terms γ} (h : terms.entries = terms'.entries) :
    terms = terms' := by
  cases terms
  cases terms'
  cases h
  rfl

/-- Maps with the same entries list them in the same order. -/
theorem Terms.entries_eq_of_mem_iff {terms terms' : Terms γ}
    (h : ∀ e, e ∈ terms.entries ↔ e ∈ terms'.entries) : terms.entries = terms'.entries := by
  have hnodup : ∀ terms : Terms γ, terms.entries.Nodup := fun terms =>
    terms.ascending.imp fun hlt heq => Nat.ne_of_lt hlt (congrArg Prod.fst heq)
  refine ((List.perm_ext_iff_of_nodup (hnodup _) (hnodup _)).mpr h).eq_of_pairwise ?_
    terms.ascending terms'.ascending
  exact fun a b _ _ hab hba => absurd hba (Nat.lt_asymm hab)

theorem Entries.insert_of_forall_lt (h : ∀ e ∈ entries, e.1 < v) :
    insert v c entries = entries ++ [(v, c)] := by
  induction entries with
  | nil => rfl
  | cons head rest ih =>
    rw [List.forall_mem_cons] at h
    rw [insert, if_neg (Nat.lt_asymm h.1), if_neg (Nat.ne_of_gt h.1), ih h.2]
    rfl

theorem Terms.entries_foldl_insert (h : Ascending (terms.entries ++ entries)) :
    (entries.foldl (fun terms e => terms.insert e.1 e.2) terms).entries =
      terms.entries ++ entries := by
  induction entries generalizing terms with
  | nil => exact (List.append_nil _).symm
  | cons e rest ih =>
    have hlast : (terms.insert e.1 e.2).entries = terms.entries ++ [e] :=
      Entries.insert_of_forall_lt fun d hd =>
        (List.pairwise_append.mp h).2.2 d hd e List.mem_cons_self
    rw [List.append_cons, ← hlast] at h
    rw [List.foldl_cons, ih h, hlast, List.append_assoc]
    rfl

theorem Terms.entries_ofEntries (h : Ascending entries) : (ofEntries entries).entries = entries :=
  entries_foldl_insert h

end Order

section Rename

variable {f : VarId → VarId} {S : Set VarId}

def Entries.rename (f : VarId → VarId) (entries : List (VarId × γ)) : List (VarId × γ) :=
  entries.map fun e => (f e.1, e.2)

def Terms.rename (f : VarId → VarId) (terms : Terms γ) : Terms γ :=
  ofEntries (Entries.rename f terms.entries)

namespace Entries

theorem ascending_rename (hf : StrictMonoOn f S) (hS : ∀ e ∈ entries, e.1 ∈ S)
    (h : Ascending entries) : Ascending (rename f entries) :=
  List.pairwise_map.mpr (h.imp_of_mem fun ha hb hab => hf (hS _ ha) (hS _ hb) hab)

theorem rename_insert (hf : StrictMonoOn f S) (hv : v ∈ S) (hS : ∀ e ∈ entries, e.1 ∈ S) :
    rename f (insert v c entries) = insert (f v) c (rename f entries) := by
  induction entries with
  | nil => rfl
  | cons head rest ih =>
    rw [List.forall_mem_cons] at hS
    have hlt : f v < f head.1 ↔ v < head.1 := hf.lt_iff_lt hv hS.1
    have heq : f v = f head.1 ↔ v = head.1 := hf.eq_iff_eq hv hS.1
    change _ = insert (f v) c ((f head.1, head.2) :: rename f rest)
    rw [insert, insert]
    by_cases hless : v < head.1
    · rw [if_pos hless, if_pos (hlt.mpr hless)]
      rfl
    · rw [if_neg hless, if_neg (hlt.not.mpr hless)]
      by_cases hsame : v = head.1
      · rw [if_pos hsame, if_pos (heq.mpr hsame)]
        rfl
      · rw [if_neg hsame, if_neg (heq.not.mpr hsame), ← ih hS.2]
        rfl

theorem rename_erase (hf : StrictMonoOn f S) (hv : v ∈ S) (hS : ∀ e ∈ entries, e.1 ∈ S) :
    rename f (erase v entries) = erase (f v) (rename f entries) := by
  rw [rename, rename, erase, erase, List.filter_map]
  congr 1
  refine List.filter_congr fun e he => ?_
  have heq : f e.1 = f v ↔ e.1 = v := hf.eq_iff_eq (hS e he) hv
  simp [bne, heq]

theorem lookup_rename (hf : StrictMonoOn f S) (hv : v ∈ S) (hS : ∀ e ∈ entries, e.1 ∈ S) :
    (rename f entries).lookup (f v) = entries.lookup v := by
  induction entries with
  | nil => rfl
  | cons head rest ih =>
    rw [List.forall_mem_cons] at hS
    change ((f head.1, head.2) :: rename f rest).lookup (f v) = ((head.1, head.2) :: rest).lookup v
    rw [lookup_cons, lookup_cons, ih hS.2]
    simp only [hf.eq_iff_eq hv hS.1]

end Entries

namespace Terms

theorem entries_rename (hf : StrictMonoOn f S) (hS : ∀ e ∈ terms.entries, e.1 ∈ S) :
    (terms.rename f).entries = Entries.rename f terms.entries :=
  entries_ofEntries (Entries.ascending_rename hf hS terms.ascending)

theorem rename_insert (hf : StrictMonoOn f S) (hv : v ∈ S) (hS : ∀ e ∈ terms.entries, e.1 ∈ S) :
    (terms.insert v c).rename f = (terms.rename f).insert (f v) c := by
  have hins : ∀ e ∈ (terms.insert v c).entries, e.1 ∈ S := fun e he => by
    rcases Entries.mem_of_mem_insert he with rfl | he
    · exact hv
    · exact hS e he
  refine ext ?_
  rw [entries_rename hf hins]
  change _ = Entries.insert (f v) c (terms.rename f).entries
  rw [entries_rename hf hS, ← Entries.rename_insert hf hv hS]
  rfl

theorem rename_erase (hf : StrictMonoOn f S) (hv : v ∈ S) (hS : ∀ e ∈ terms.entries, e.1 ∈ S) :
    (terms.erase v).rename f = (terms.rename f).erase (f v) := by
  refine ext ?_
  rw [entries_rename hf fun e he => hS e (List.mem_filter.mp he).1]
  change _ = Entries.erase (f v) (terms.rename f).entries
  rw [entries_rename hf hS, ← Entries.rename_erase hf hv hS]
  rfl

theorem get?_rename (hf : StrictMonoOn f S) (hv : v ∈ S) (hS : ∀ e ∈ terms.entries, e.1 ∈ S) :
    (terms.rename f).get? (f v) = terms.get? v := by
  rw [get?, entries_rename hf hS]
  exact Entries.lookup_rename hf hv hS

end Terms

end Rename

end PiecewiseLinear
